/-
Webernetes.Storage.StoreRuns — creates, updates and deletes of objects,
interleaved at every await.

All is said of one key of the etcd and what the collation takes for it.
`discipline` is what a call may count on while it awaits: what is found
under the key was there when it read it, or is newer than its read. From
that, a transaction that compares the revision a call has read replaces
exactly what the call has read, so the commits of the key form a chain
(`KeyLog`), each finding what the one before it left.
-/
import Webernetes.Etcd.Runs
import Webernetes.Storage.Store

namespace Webernetes.Storage

open Js Base Etcd
open FakeState (recordValue)

variable {locale : Etcd.Locale} {β E ε : Type}

namespace Store

variable (store : Store β E ε)

/-! ## What the requests do to the etcd -/

theorem key_ne_nil (name : JsString) (ns : Option JsString) : store.key name ns ≠ [] := by
  have hinitial : js "/registry/" ≠ [] := by decide
  simp [key, hinitial]

variable {store}

/-- A read of a key finds what is live under it. -/
theorem get_eq {s : StoreState locale β E} (h : s.etcd.WellKept) {key : JsString} (hkey : key ≠ []) :
    ∃ response, (s.etcd.range [] { key, rangeEnd := [], limit := 1 }).mapError
        (StoreError.etcd (ε := ε)) = .ok response
      ∧ response.kvs[0]? = (s.etcd.live key).map fun value => toPublicKv value [] false := by
  obtain ⟨response, hrange, -, hkvs⟩ := h.range_get hkey
  refine ⟨response, by rw [hrange]; rfl, ?_⟩
  rw [hkvs]
  cases s.etcd.live key <;> rfl

/-- What a transaction of the store does: it is refused and nothing
changes, or its comparison holds and the key, and nothing else, changes. -/
structure TxnDone (s : FakeState locale) (request : TxnRequest) (clause : Compare) (key : JsString)
    (found : Option StoredValue) (response : TxnResponse) : Prop where
  result : (s.txn request).result = .ok response
  refused : response.succeeded = false → (s.txn request).state = s
  holds : response.succeeded = true → s.evaluateCompare clause = true
  revision : response.succeeded = true →
    response.header.revision = s.revision + 1 ∧ (s.txn request).state.revision = s.revision + 1
  fresh : ∀ value, found = some value → value.modRevision ≤ s.revision → s.current key = some value
  current : response.succeeded = true → ∀ other,
    (s.txn request).state.current other = if locale.Same key other then found else s.current other

/-- What a put of an object leaves under its key. -/
structure Holds (store : Store β E ε) (key : JsString) (obj : Storable β) (revision : Nat)
    (value : StoredValue) : Prop where
  key : value.key = key
  modRevision : value.modRevision = revision
  value : value.value = Buffer.fromString (store.json.stringify obj)

theorem recordValue_putRecord (existing : Option StoredValue) (next : StoredValue) :
    recordValue (putRecord existing next) = some next := rfl

theorem recordValue_deleteRecord (value : StoredValue) (revision : Nat) :
    recordValue (deleteRecord value revision) = none := rfl

theorem txn_put (store : Store β E ε) (s : FakeState locale) {key : JsString} (hkey : key ≠ []) (clause : Compare)
    (obj : Storable β) :
    ∃ response value, store.Holds key obj (s.revision + 1) value
      ∧ TxnDone s (store.putRequest clause key obj) clause key (some value) response := by
  let options := store.putOptions key obj
  let value := putValue (s.current key) options key (s.revision + 1)
  have hvalid : s.PutValid [] options := ⟨hkey, fun h => by cases h⟩
  have hfresh : ∀ v, some value = some v → v.modRevision ≤ s.revision → s.current key = some v := by
    intro v hv hle
    cases hv
    exact absurd (show s.revision + 1 ≤ s.revision from hle) (Nat.not_succ_le_self _)
  cases hclause : s.evaluateCompare clause with
  | false =>
    have htxn := s.txn_refused hclause { requestPut := some options }
    refine ⟨_, value, ⟨rfl, rfl, rfl⟩, congrArg Outcome.result htxn,
      fun _ => congrArg Outcome.state htxn, fun h => (by cases h), fun h => (by cases h), hfresh,
      fun h => (by cases h)⟩
  | true =>
    obtain ⟨responses, htxn⟩ := s.txn_put hclause hvalid
    refine ⟨_, value, ⟨rfl, rfl, rfl⟩, congrArg Outcome.result htxn, fun h => (by cases h),
      fun _ => hclause, fun _ => ?_, hfresh, fun _ other => ?_⟩
    · exact ⟨rfl, congrArg (fun o => o.state.revision) htxn⟩
    · rw [show s.txn (store.putRequest clause key obj) = _ from htxn, FakeState.current_appendRecord,
        recordValue_putRecord]
      rfl

theorem txn_delete {s : FakeState locale} (h : s.WellKept) {key : JsString} (hkey : key ≠ [])
    (clause : Compare) :
    ∃ response, TxnDone s (deleteRequest clause key) clause key
      (if (s.live key).isSome then none else s.current key) response := by
  have hfresh : ∀ v, (if (s.live key).isSome then none else s.current key) = some v →
      v.modRevision ≤ s.revision → s.current key = some v := by
    intro v hv _
    split at hv
    · cases hv
    · exact hv
  cases hclause : s.evaluateCompare clause with
  | false =>
    have htxn := s.txn_refused hclause { requestDeleteRange := some { key, rangeEnd := [] } }
    exact ⟨_, congrArg Outcome.result htxn, fun _ => congrArg Outcome.state htxn,
      fun h => (by cases h), fun h => (by cases h), hfresh, fun h => (by cases h)⟩
  | true =>
    obtain ⟨responses, htxn⟩ := s.txn_delete h hclause hkey false
    refine ⟨_, congrArg Outcome.result htxn, fun h => (by cases h), fun _ => hclause, fun _ => ?_,
      hfresh, fun _ other => ?_⟩
    · refine ⟨rfl, (congrArg (fun o => o.state.revision) htxn).trans ?_⟩
      simp
    · rw [show s.txn (deleteRequest clause key) = _ from htxn]
      cases hlive : s.live key with
      | none =>
        by_cases hsame : locale.Same key other
        · simp [hsame, s.current_congr hsame, FakeState.appendRecords]
        · simp [hsame, FakeState.appendRecords]
      | some value =>
        obtain ⟨-, rfl⟩ := FakeState.WellKept.live_eq_some_iff.mp hlive
        simp only [Option.toList_some, List.map_cons, List.map_nil, FakeState.appendRecords_cons,
          FakeState.appendRecords_nil, FakeState.current_appendRecord, recordValue_deleteRecord]
        rfl

/-! ## The log of a key -/

/-- The value is the version that was read. -/
structure Reads (store : Store β E ε) (stored : Stored β) (value : StoredValue) : Prop where
  modRevision : value.modRevision = stored.modRevision
  obj : ∃ obj, store.json.parse value.value.toString = some obj
    ∧ stored.obj = obj.withResourceVersion stored.resourceVersion

/-- A commit replaced the version its call had read, and the one that was
asked for. -/
def Replaces (store : Store β E ε) (c : Commit β) (wanted : Option JsString) : Prop :=
  ∃ read value, c.read = some read ∧ c.before = some value ∧ value.key = c.key
    ∧ store.Reads read value ∧ (truthy wanted = true → wanted = some read.resourceVersion)

/-- A commit left its object under its key, at its revision. -/
def Stores (store : Store β E ε) (c : Commit β) : Prop :=
  ∃ obj value, c.stored = some obj ∧ c.after = some value ∧ store.Holds c.key obj c.revision value

/-- What a commit is good for. -/
def Meets (store : Store β E ε) (c : Commit β) : Prop :=
  match c.kind with
  | .create => c.before = none ∧ store.Stores c
  | .update wanted => store.Replaces c wanted ∧ store.Stores c
  | .delete => store.Replaces c none ∧ c.after = none

theorem Meets.stores {store : Store β E ε} {c : Commit β} (h : store.Meets c)
    (hkind : c.kind ≠ .delete) : store.Stores c := by
  unfold Meets at h
  split at h
  · exact h.2
  · exact h.2
  · rename_i hdelete
    exact absurd hdelete hkind

end Store

/-- The commits of the keys the collation takes for a key. -/
def StoreState.commitsOf (s : StoreState locale β E) (key : JsString) : List (Commit β) :=
  s.commits.filter fun c => locale.Same c.key key

/-- What a log leaves under its key. -/
def leftBy (log : List (Commit β)) : Option StoredValue := log.getLast?.bind Commit.after

@[simp] theorem leftBy_concat (log : List (Commit β)) (c : Commit β) :
    leftBy (log ++ [c]) = c.after := by simp [leftBy]

namespace Store

/-- What is found under another key is of another revision. -/
def Alone (key : JsString) (s : FakeState locale) : Prop :=
  ∀ other value own, s.current other = some value → s.current key = some own →
    value.modRevision = own.modRevision → locale.Same other key

/-- What is found is of another revision, where what is new is under the key
or elsewhere, but not both. -/
theorem Alone.of_old {key : JsString} {s t : FakeState locale} (h : Alone key s)
    (hold : ∀ other value, t.current other = some value → value.modRevision ≤ s.revision →
      s.current other = some value)
    (hnew : ∀ other value own, t.current other = some value → t.current key = some own →
      s.revision < value.modRevision → s.revision < own.modRevision → locale.Same other key) :
    Alone key t := by
  intro other value own hvalue hown heq
  rcases Nat.lt_or_ge s.revision value.modRevision with hlt | hle
  · exact hnew other value own hvalue hown hlt (heq ▸ hlt)
  · exact h other value own (hold other value hvalue hle) (hold key own hown (heq ▸ hle)) heq

theorem TxnDone.alone {s : FakeState locale} {request : TxnRequest} {clause : Compare}
    {key name : JsString} {found : Option StoredValue} {response : TxnResponse}
    (hdone : TxnDone s request clause name found response) (hsucceeded : response.succeeded = true)
    (hkept : s.WellKept) (h : Alone key s) : Alone key (s.txn request).state := by
  have hcurrent := hdone.current hsucceeded
  refine h.of_old (fun other value hvalue hle => ?_) fun other value own hvalue hown hlt hlt' => ?_
  · rw [hcurrent] at hvalue
    split at hvalue
    · rename_i hsame
      rw [← s.current_congr hsame]
      exact hdone.fresh value hvalue hle
    · exact hvalue
  · rw [hcurrent] at hvalue hown
    split at hvalue
    · rename_i hsame
      split at hown
      · rename_i hsame'
        exact hsame.symm.trans hsame'
      · exact absurd hlt' (Nat.not_lt_of_le (hkept.found hown).modRevision_le)
    · exact absurd hlt (Nat.not_lt_of_le (hkept.found hvalue).modRevision_le)

/-- The commits of a key tell what is found under it, and each found what
the one before it left. -/
structure KeyLog (store : Store β E ε) (key : JsString) (s : StoreState locale β E) : Prop where
  alone : Alone key s.etcd
  found : s.etcd.current key = leftBy (s.commitsOf key)
  chained : ∀ front c rest, s.commitsOf key = front ++ c :: rest → c.before = leftBy front
  meets : ∀ c ∈ s.commitsOf key, store.Meets c

variable {store : Store β E ε} {key : JsString} {s t : StoreState locale β E} {c : Commit β}

theorem commitsOf_concat_of_same (hcommits : t.commits = s.commits ++ [c])
    (hsame : locale.Same c.key key) : t.commitsOf key = s.commitsOf key ++ [c] := by
  simp [StoreState.commitsOf, hcommits, hsame]

theorem commitsOf_concat_of_not_same (hcommits : t.commits = s.commits ++ [c])
    (hsame : ¬ locale.Same c.key key) : t.commitsOf key = s.commitsOf key := by
  simp [StoreState.commitsOf, hcommits, hsame]

/-- Nothing happens to the key. -/
theorem KeyLog.of_unchanged (h : store.KeyLog key s) (halone : Alone key t.etcd)
    (hcurrent : t.etcd.current key = s.etcd.current key)
    (hcommits : t.commitsOf key = s.commitsOf key) : store.KeyLog key t where
  alone := halone
  found := by rw [hcurrent, hcommits, h.found]
  chained := by
    rw [hcommits]
    exact h.chained
  meets := by
    rw [hcommits]
    exact h.meets

/-- A commit of the key. -/
theorem KeyLog.snoc (h : store.KeyLog key s) (halone : Alone key t.etcd)
    (hcommits : t.commitsOf key = s.commitsOf key ++ [c])
    (hbefore : c.before = s.etcd.current key) (hafter : c.after = t.etcd.current key)
    (hmeets : store.Meets c) : store.KeyLog key t where
  alone := halone
  found := by rw [hcommits, leftBy_concat, hafter]
  chained := by
    intro front d rest hsplit
    rw [hcommits] at hsplit
    rcases List.append_eq_append_iff.mp hsplit with ⟨mid, hfront, hrest⟩ | ⟨mid, hfront, hrest⟩
    · cases mid with
      | nil =>
        rw [List.append_nil] at hfront
        cases hrest
        rw [hbefore, h.found, hfront]
      | cons e mid => simp at hrest
    · cases mid with
      | nil =>
        rw [List.append_nil] at hfront
        cases hrest
        rw [hbefore, h.found, hfront]
      | cons e mid =>
        rw [List.cons_append] at hrest
        obtain ⟨rfl, -⟩ := List.cons.inj hrest
        exact h.chained front d mid hfront
  meets := by
    rw [hcommits]
    intro d hd
    rcases List.mem_append.mp hd with hd | hd
    · exact h.meets d hd
    · rw [List.mem_singleton.mp hd]
      exact hmeets

/-- A log of commits that keep a promise. -/
structure Promised (store : Store β E ε) (promise : Commit β → Prop) (key : JsString)
    (s : StoreState locale β E) : Prop extends KeyLog store key s where
  promised : ∀ c ∈ s.commitsOf key, promise c

variable {promise : Commit β → Prop}

theorem Promised.of_unchanged (h : store.Promised promise key s) (halone : Alone key t.etcd)
    (hcurrent : t.etcd.current key = s.etcd.current key)
    (hcommits : t.commitsOf key = s.commitsOf key) : store.Promised promise key t where
  toKeyLog := h.toKeyLog.of_unchanged halone hcurrent hcommits
  promised := by
    rw [hcommits]
    exact h.promised

theorem Promised.snoc (h : store.Promised promise key s) (halone : Alone key t.etcd)
    (hcommits : t.commitsOf key = s.commitsOf key ++ [c]) (hbefore : c.before = s.etcd.current key)
    (hafter : c.after = t.etcd.current key) (hmeets : store.Meets c) (hpromise : promise c) :
    store.Promised promise key t where
  toKeyLog := h.toKeyLog.snoc halone hcommits hbefore hafter hmeets
  promised := by
    rw [hcommits]
    intro d hd
    rcases List.mem_append.mp hd with hd | hd
    · exact h.promised d hd
    · rw [List.mem_singleton.mp hd]
      exact hpromise

/-! ## What calls count on -/

/-- What is found under the key is as old as before, or new. -/
structure Ages (key : JsString) (s t : FakeState locale) : Prop where
  revision : s.revision ≤ t.revision
  fresh : ∀ value, t.current key = some value → value.modRevision ≤ s.revision →
    s.current key = some value

theorem Ages.refl (key : JsString) (s : FakeState locale) : Ages key s s :=
  ⟨Nat.le_refl _, fun _ h _ => h⟩

theorem Ages.trans {s t u : FakeState locale} (h : Ages key s t) (h' : Ages key t u) :
    Ages key s u where
  revision := Nat.le_trans h.revision h'.revision
  fresh value hvalue hle :=
    h.fresh value (h'.fresh value hvalue (Nat.le_trans hle h.revision)) hle

theorem Ages.of_unchanged {s t : FakeState locale} (hrevision : s.revision ≤ t.revision)
    (hcurrent : t.current key = s.current key) : Ages key s t :=
  ⟨hrevision, fun _ hvalue _ => hcurrent ▸ hvalue⟩

/-- What calls do to the store between two moments. -/
structure Grows (key : JsString) (s t : StoreState locale β E) : Prop where
  ages : Ages key s.etcd t.etcd
  commits : s.commits <+: t.commits

theorem Grows.refl (key : JsString) (s : StoreState locale β E) : Grows key s s :=
  ⟨Ages.refl key s.etcd, List.prefix_refl _⟩

theorem Grows.trans {u : StoreState locale β E} (h : Grows key s t) (h' : Grows key t u) :
    Grows key s u :=
  ⟨h.ages.trans h'.ages, h.commits.trans h'.commits⟩

/-- What a request of call `i` does: nothing to the key, or a commit. -/
inductive Owes (key : JsString) (i : Nat) (s t : StoreState locale β E) : Prop where
  | nothing (hcommits : t.commits = s.commits)
      (hcurrent : t.etcd.current key = s.etcd.current key)
  | commit (c : Commit β) (hcall : c.call = i) (hcommits : t.commits = s.commits ++ [c])
      (hsame : locale.Same c.key key →
        c.before = s.etcd.current key ∧ c.after = t.etcd.current key)
      (hother : ¬ locale.Same c.key key → t.etcd.current key = s.etcd.current key)

/-- The discipline of the calls, for one key and a promise that every
commit of the key keeps. -/
def discipline (store : Store β E ε) (key : JsString) (promise : Commit β → Prop) :
    Discipline (StoreState locale β E) where
  inv s := s.etcd.WellKept ∧ store.Promised promise key s
  rely _ := Grows key
  guar i s t := Grows key s t ∧ Owes key i s t
  refl _ := Grows.refl key
  trans _ _ _ _ := Grows.trans
  others _ _ _ _ _ _ h := h.1

/-- While a version is under the key, it is the one the call has read. -/
def Knows (store : Store β E ε) (key name : JsString) (stored : Stored β)
    (s : StoreState locale β E) : Prop :=
  locale.Same name key → ∃ value, store.Reads stored value ∧ value.key = name
    ∧ 0 < value.modRevision ∧ value.modRevision ≤ s.etcd.revision
    ∧ ∀ other, s.etcd.current key = some other → other.modRevision = value.modRevision →
      other = value

theorem Knows.grows {name : JsString} {stored : Stored β} (h : store.Knows key name stored s)
    (hgrows : Grows key s t) : store.Knows key name stored t := by
  intro hsame
  obtain ⟨value, hreads, hkey, hpos, hle, hone⟩ := h hsame
  refine ⟨value, hreads, hkey, hpos, Nat.le_trans hle hgrows.ages.revision, fun other hother hmod => ?_⟩
  exact hone other (hgrows.ages.fresh other hother (hmod ▸ hle)) hmod

/-- A version that was read under another key is not the one under the key. -/
def Apart (key name : JsString) (stored : Stored β) (s : StoreState locale β E) : Prop :=
  ¬ locale.Same name key → stored.modRevision ≤ s.etcd.revision
    ∧ ∀ other, s.etcd.current key = some other → other.modRevision ≠ stored.modRevision

theorem Apart.grows {name : JsString} {stored : Stored β} (h : Apart key name stored s)
    (hgrows : Grows key s t) : Apart key name stored t := by
  intro hsame
  obtain ⟨hle, hother⟩ := h hsame
  refine ⟨Nat.le_trans hle hgrows.ages.revision, fun other hfound hmod => ?_⟩
  exact hother other (hgrows.ages.fresh other hfound (hmod ▸ hle)) hmod

/-- What a call knows of a version it has read. -/
structure HasRead (store : Store β E ε) (key name : JsString) (stored : Stored β)
    (s : StoreState locale β E) : Prop where
  knows : store.Knows key name stored s
  apart : Apart key name stored s
  resourceVersion : stored.obj.objectMeta.resourceVersion = some stored.resourceVersion

theorem HasRead.grows {name : JsString} {stored : Stored β} (h : store.HasRead key name stored s)
    (hgrows : Grows key s t) : store.HasRead key name stored t :=
  ⟨h.knows.grows hgrows, h.apart.grows hgrows, h.resourceVersion⟩

/-- The call has made a commit. -/
def Made (i : Nat) (kind : CommitKind) (name : JsString) (obj : Storable β) (revision : Nat)
    (s : StoreState locale β E) : Prop :=
  ∃ c ∈ s.commits, c.call = i ∧ c.kind = kind ∧ c.key = name ∧ c.stored = some obj
    ∧ c.revision = revision

theorem Made.grows {i : Nat} {kind : CommitKind} {name : JsString} {obj : Storable β}
    {revision : Nat} (h : Made i kind name obj revision s) (hgrows : Grows key s t) :
    Made i kind name obj revision t := by
  obtain ⟨c, hc, hmade⟩ := h
  exact ⟨c, hgrows.commits.subset hc, hmade⟩

/-- A commit that call `i` makes of the key when it has got to `s`. -/
structure MadeFrom (store : Store β E ε) (key : JsString) (i : Nat) (s : StoreState locale β E)
    (c : Commit β) : Prop where
  call : c.call = i
  same : locale.Same c.key key
  meets : store.Meets c
  before : ∃ t, Grows key s t ∧ c.before = t.etcd.current key

theorem MadeFrom.of_grows {i : Nat} (h : store.MadeFrom key i t c) (hst : Grows key s t) :
    store.MadeFrom key i s c := by
  obtain ⟨u, htu, hbefore⟩ := h.before
  exact ⟨h.call, h.same, h.meets, u, hst.trans htu, hbefore⟩

theorem Reads.obj_eq {stored stored' : Stored β} {value : StoredValue} (h : store.Reads stored value)
    (h' : store.Reads stored' value) : stored' = stored := by
  obtain ⟨hmod, obj, hparse, hobj⟩ := h
  obtain ⟨hmod', obj', hparse', hobj'⟩ := h'
  have hrevision : stored'.modRevision = stored.modRevision := hmod'.symm.trans hmod
  rw [hparse] at hparse'
  cases hparse'
  have hsame : stored'.obj = stored.obj := by
    rw [hobj, hobj', Stored.resourceVersion, hrevision, Stored.resourceVersion]
  cases stored
  cases stored'
  cases hsame
  cases hrevision
  rfl

/-- An update that asks for a version the call has read writes over that
version. -/
theorem HasRead.before {i : Nat} {name : JsString} {stored : Stored β}
    (h : store.HasRead key name stored s) (hmade : store.MadeFrom key i s c)
    (hkind : c.kind = .update (some stored.resourceVersion)) :
    locale.Same name key ∧ c.read = some stored
      ∧ ∃ value, c.before = some value ∧ store.Reads stored value := by
  have hmeets := hmade.meets
  rw [Meets, hkind] at hmeets
  obtain ⟨⟨read, value, hread, hbefore, -, hreads, hwanted⟩, -⟩ := hmeets
  have hrevision : stored.modRevision = read.modRevision :=
    revisionText_inj (Option.some.inj (hwanted (truthy_revisionText _)))
  obtain ⟨t, hst, hfound⟩ := hmade.before
  have hvalue : t.etcd.current key = some value := hfound ▸ hbefore
  have hmod : value.modRevision = stored.modRevision := hreads.modRevision.trans hrevision.symm
  by_cases hname : locale.Same name key
  · obtain ⟨known, hknown, -, -, -, hone⟩ := h.knows.grows hst hname
    have heq : value = known := hone value hvalue (hmod.trans hknown.modRevision.symm)
    subst heq
    have hstored : read = stored := hknown.obj_eq hreads
    exact ⟨hname, hstored ▸ hread, value, hbefore, hknown⟩
  · exact absurd hmod ((h.apart.grows hst hname).2 value hvalue)

/-! ### The requests under the discipline -/

variable {i : Nat} {ρ : Type} {Q : Except (StoreError ε) ρ → StoreState locale β E → Prop}

theorem wp_hook {p : Prog E ε ρ}
    (h : ∀ outcome t, Grows key s t → (store.discipline key promise).inv t →
      (∀ value, outcome = .ok value → p.MayReturn value) → Q outcome t) :
    (store.discipline key promise).Wp i (hook p) Q s := by
  refine (Discipline.wp_zoom (P := Grows key s) ?_ ?_ p (Grows.refl key s)).mono
    fun outcome t ht hst => h outcome t hst.1 ht hst.2
  · exact fun t u htu _ hst => hst.trans htu
  · intro t ext ht hst
    have hext : Grows key t { t with ext } := ⟨Ages.refl key t.etcd, List.prefix_refl _⟩
    exact ⟨⟨ht.1, ht.2.of_unchanged ht.2.alone rfl rfl⟩, ⟨hext, .nothing rfl rfl⟩, hst.trans hext⟩

/-- A read changes nothing. What it answers is of the moment it is made. -/
theorem now_get {Q : Except (StoreError ε) RangeResponse → StoreState locale β E → Prop}
    {name : JsString} (hname : name ≠ []) (hs : (store.discipline key promise).inv s)
    (h : ∀ response t, Grows key s t → (store.discipline key promise).inv t →
      response.kvs[0]? = (s.etcd.live name).map (fun value => toPublicKv value [] false) →
      Q (.ok response) t) :
    (store.discipline key promise).Now i (get name) Q s := by
  refine ⟨hs, ⟨Grows.refl key s, .nothing rfl rfl⟩, fun t hst ht => ?_⟩
  obtain ⟨response, hrange, hkvs⟩ := get_eq (ε := ε) hs.1 hname
  dsimp only
  rw [hrange]
  exact h response t hst ht hkvs

/-- What a read finds is what is under the key when it is made. -/
theorem now_readStored {Q : Except (StoreError ε) (Option (Stored β)) → StoreState locale β E → Prop}
    (hs : (store.discipline key promise).inv s) (name : JsString) (ns : Option JsString)
    (h : ∀ outcome t, Grows key s t → (store.discipline key promise).inv t →
      (∀ stored, outcome = .ok (some stored) → store.HasRead key (store.key name ns) stored t
        ∧ ∃ value, s.etcd.live (store.key name ns) = some value ∧ store.Reads stored value) →
      Q outcome t) :
    (store.discipline key promise).Now i (store.readStored name ns) Q s := by
  refine Discipline.now_bind hs (now_get (store.key_ne_nil name ns) hs ?_)
  intro response t hst ht hkvs
  dsimp only
  cases hlive : s.etcd.live (store.key name ns) with
  | none =>
    rw [hlive] at hkvs
    rw [hkvs]
    refine Discipline.wp_pure fun u htu hu => h _ u (hst.trans htu) hu ?_
    exact fun stored hstored => by cases hstored
  | some value =>
    rw [hlive] at hkvs
    rw [hkvs]
    obtain ⟨hcurrent, hkey⟩ := FakeState.WellKept.live_eq_some_iff.mp hlive
    have hfound := hs.1.found hcurrent
    simp only [Option.map_some, toPublicKv, Bool.false_eq_true, if_false]
    cases hparse : store.json.parse value.value.toString with
    | none =>
      refine Discipline.wp_throw fun u htu hu => h _ u (hst.trans htu) hu ?_
      exact fun stored hstored => by cases hstored
    | some obj =>
      refine Discipline.wp_pure fun u htu hu => h _ u (hst.trans htu) hu ?_
      intro stored hstored
      cases hstored
      have hreads : store.Reads ⟨obj.withResourceVersion (revisionText value.modRevision),
        value.modRevision⟩ value := ⟨rfl, obj, hparse, rfl⟩
      refine ⟨HasRead.grows (s := s) ⟨fun hsame => ?_, fun hother => ?_, rfl⟩ (hst.trans htu), value,
        hlive, hreads⟩
      · refine ⟨value, hreads, hkey, hfound.modRevision_pos, hfound.modRevision_le, ?_⟩
        intro other hother _
        rw [← s.etcd.current_congr hsame, hcurrent] at hother
        exact (Option.some.inj hother).symm
      · refine ⟨hfound.modRevision_le, fun own hown heq => hother ?_⟩
        exact hs.2.alone _ value own hcurrent hown heq.symm

theorem wp_get {Q : Except (StoreError ε) RangeResponse → StoreState locale β E → Prop}
    {name : JsString} (hname : name ≠ [])
    (h : ∀ response t, Grows key s t → (store.discipline key promise).inv t → Q (.ok response) t) :
    (store.discipline key promise).Wp i (get name) Q s :=
  Discipline.wp_iff_now.mpr fun _ hst ht =>
    now_get hname ht fun response u htu hu _ => h response u (hst.trans htu) hu

theorem wp_readStored {Q : Except (StoreError ε) (Option (Stored β)) → StoreState locale β E → Prop}
    (name : JsString) (ns : Option JsString)
    (h : ∀ outcome t, Grows key s t → (store.discipline key promise).inv t →
      (∀ stored, outcome = .ok (some stored) → store.HasRead key (store.key name ns) stored t) →
      Q outcome t) :
    (store.discipline key promise).Wp i (store.readStored name ns) Q s :=
  Discipline.wp_iff_now.mpr fun _ hst ht => now_readStored ht name ns fun outcome u htu hu hread =>
    h outcome u (hst.trans htu) hu fun stored hstored => (hread stored hstored).1

/-- The entry of a commit says what the commit is about. -/
structure Describes (entry : FakeState locale → FakeState locale → Nat → Commit β) (i : Nat)
    (name : JsString) : Prop where
  call : ∀ s s' revision, (entry s s' revision).call = i
  key : ∀ s s' revision, (entry s s' revision).key = name
  before : ∀ s s' revision, (entry s s' revision).before = s.current name
  after : ∀ s s' revision, (entry s s' revision).after = s'.current name

/-- A transaction that succeeds is logged, when it is what its kind of
commit is good for. -/
theorem wp_commit {Q : Except (StoreError ε) TxnResponse → StoreState locale β E → Prop}
    {request : TxnRequest} (clause : Compare) {name : JsString}
    {entry : FakeState locale → FakeState locale → Nat → Commit β} (hentry : Describes entry i name)
    (hdone : ∀ t, Grows key s t → (store.discipline key promise).inv t → ∃ found response,
      TxnDone t.etcd request clause name found response
        ∧ (response.succeeded = true → locale.Same name key →
          store.Meets (entry t.etcd (t.etcd.txn request).state response.header.revision)))
    (hpromise : ∀ before after revision, store.MadeFrom key i s (entry before after revision) →
      promise (entry before after revision))
    (h : ∀ response t, Grows key s t → (store.discipline key promise).inv t →
      (response.succeeded = true → ∃ before after,
        entry before after response.header.revision ∈ t.commits) → Q (.ok response) t) :
    (store.discipline key promise).Wp i (commit request entry) Q s := by
  refine Discipline.wp_exchange fun t hst ht => ?_
  obtain ⟨found, response, hdone, hmeets⟩ := hdone t hst ht
  have hkept : (t.etcd.txn request).state.WellKept := ht.1.execWrite (.txn request)
  simp only [hdone.result, Except.mapError]
  cases hsucceeded : response.succeeded with
  | false =>
    simp only [hdone.refused hsucceeded, Bool.false_eq_true, if_false, List.append_nil]
    refine ⟨ht, ⟨Grows.refl key t, .nothing rfl rfl⟩, fun u htu hu => ?_⟩
    exact h response u (hst.trans htu) hu fun hyes => by simp [hyes] at hsucceeded
  | true =>
    simp only [if_true]
    generalize hc : entry t.etcd (t.etcd.txn request).state response.header.revision = c
    generalize ht' : ({ t with etcd := (t.etcd.txn request).state, commits := t.commits ++ [c] } :
      StoreState locale β E) = t'
    have hetcd : t'.etcd = (t.etcd.txn request).state := by rw [← ht']
    have hcommits : t'.commits = t.commits ++ [c] := by rw [← ht']
    have hcurrent : t'.etcd.current key
        = if locale.Same name key then found else t.etcd.current key := by
      rw [hetcd, hdone.current hsucceeded]
    have hckey : c.key = name := by rw [← hc, hentry.key]
    have hages : Ages key t.etcd t'.etcd := by
      refine ⟨by rw [hetcd, (hdone.revision hsucceeded).2]; exact Nat.le_succ _, fun value hv hle => ?_⟩
      rw [hcurrent] at hv
      split at hv
      · rename_i hsame
        rw [← t.etcd.current_congr hsame]
        exact hdone.fresh value hv hle
      · exact hv
    have hgrows : Grows key t t' := ⟨hages, hcommits ▸ List.prefix_append _ _⟩
    have hboth : locale.Same c.key key →
        c.before = t.etcd.current key ∧ c.after = t'.etcd.current key := by
      intro hsame
      rw [hckey] at hsame
      rw [← hc, hentry.before, hentry.after, ← hetcd]
      exact ⟨t.etcd.current_congr hsame, t'.etcd.current_congr hsame⟩
    have hother : ¬ locale.Same c.key key → t'.etcd.current key = t.etcd.current key := by
      intro hsame
      rw [hckey] at hsame
      rw [hcurrent, if_neg hsame]
    have halone : Alone key t'.etcd := by
      rw [hetcd]
      exact hdone.alone hsucceeded ht.1 ht.2.alone
    have hlog : store.Promised promise key t' := by
      by_cases hsame : locale.Same c.key key
      · obtain ⟨hbefore, hafter⟩ := hboth hsame
        have hcmeets : store.Meets c := hc ▸ hmeets hsucceeded (hckey ▸ hsame)
        have hmade : store.MadeFrom key i s c :=
          ⟨hc ▸ hentry.call _ _ _, hsame, hcmeets, t, hst, hbefore⟩
        exact ht.2.snoc halone (commitsOf_concat_of_same hcommits hsame) hbefore hafter hcmeets
          (hc ▸ hpromise _ _ _ (hc ▸ hmade))
      · exact ht.2.of_unchanged halone (hother hsame) (commitsOf_concat_of_not_same hcommits hsame)
    refine ⟨⟨hetcd ▸ hkept, hlog⟩, ⟨hgrows, .commit c ?_ hcommits hboth hother⟩, fun u htu hu => ?_⟩
    · rw [← hc, hentry.call]
    · refine h response u ((hst.trans hgrows).trans htu) hu fun _ => ⟨t.etcd, (t.etcd.txn request).state, ?_⟩
      rw [hc]
      exact htu.commits.subset (hcommits ▸ List.mem_append_right _ (List.mem_singleton_self c))

/-- A put over what the call has read, or over nothing. -/
theorem wp_commit_put {Q : Except (StoreError ε) TxnResponse → StoreState locale β E → Prop}
    {clause : Compare} {name : JsString} (hname : name ≠ []) {kind : CommitKind} {obj : Storable β}
    {read : Option (Stored β)} {entry : FakeState locale → FakeState locale → Nat → Commit β} (hentry : Describes entry i name)
    (hkind : ∀ s s' revision, (entry s s' revision).kind = kind
      ∧ (entry s s' revision).stored = some obj
      ∧ (entry s s' revision).revision = revision
      ∧ (entry s s' revision).read = read)
    (hmeets : ∀ t revision s', Grows key s t → (store.discipline key promise).inv t →
      t.etcd.evaluateCompare clause = true → locale.Same name key →
      store.Stores (entry t.etcd s' revision) → store.Meets (entry t.etcd s' revision))
    (hpromise : ∀ c, store.MadeFrom key i s c → c.kind = kind → c.key = name →
      c.stored = some obj → c.read = read → promise c)
    (h : ∀ response t, Grows key s t → (store.discipline key promise).inv t →
      (response.succeeded = true → Made i kind name obj response.header.revision t) →
      Q (.ok response) t) :
    (store.discipline key promise).Wp i (commit (store.putRequest clause name obj) entry) Q s := by
  refine wp_commit clause hentry (fun t hst ht => ?_) (fun before after revision hmade => ?_)
    fun response t hst ht hmade => h response t hst ht ?_
  · obtain ⟨response, value, hholds, hdone⟩ := store.txn_put t.etcd hname clause obj
    refine ⟨_, response, hdone, fun hsucceeded hsame => ?_⟩
    refine hmeets t _ _ hst ht (hdone.holds hsucceeded) hsame ⟨obj, value, (hkind _ _ _).2.1, ?_, ?_⟩
    · rw [hentry.after, hdone.current hsucceeded, if_pos (locale.same_refl name)]
    · rw [hentry.key, (hkind _ _ _).2.2.1, (hdone.revision hsucceeded).1]
      exact hholds
  · obtain ⟨hk, hstored, -, hread⟩ := hkind before after revision
    exact hpromise _ hmade hk (hentry.key before after revision) hstored hread
  · intro hsucceeded
    obtain ⟨before, after, hmem⟩ := hmade hsucceeded
    obtain ⟨hk, hstored, hrevision, -⟩ := hkind before after response.header.revision
    exact ⟨_, hmem, hentry.call _ _ _, hk, hentry.key _ _ _, hstored, hrevision⟩

/-- What a comparison with the version a call has read says. -/
theorem replaces_of_knows {name : JsString} {existing : Stored β} {wanted : Option JsString}
    (hcomparable : locale.Same name key → locale.Comparable name) (hsame : locale.Same name key)
    (hknows : store.Knows key name existing t)
    (hclause : t.etcd.evaluateCompare (modIs name existing.modRevision) = true)
    (hread : c.read = some existing) (hckey : c.key = name)
    (hbefore : c.before = t.etcd.current name)
    (hwanted : truthy wanted = true → wanted = some existing.resourceVersion) :
    store.Replaces c wanted := by
  obtain ⟨value, hreads, hvalue, hpos, -, hone⟩ := hknows hsame
  obtain ⟨found, hfound, hmod⟩ :=
    (FakeState.mod_eq_iff (hcomparable hsame) (hreads.modRevision ▸ hpos)).mp hclause
  have heq : found = value := by
    rw [t.etcd.current_congr hsame] at hfound
    exact hone found hfound (hmod.trans hreads.modRevision.symm)
  exact ⟨existing, value, hread, by rw [hbefore, hfound, heq], hvalue.trans hckey.symm, hreads, hwanted⟩

/-- A delete of what the call has read. What was read was put under this
very key, so the delete finds it. -/
theorem meets_delete {name : JsString} {existing : Stored β} {response : TxnResponse}
    (hcomparable : locale.Same name key → locale.Comparable name) (hsame : locale.Same name key)
    (hknows : store.Knows key name existing t)
    (hdone : TxnDone t.etcd (deleteRequest (modIs name existing.modRevision) name)
      (modIs name existing.modRevision) name
      (if (t.etcd.live name).isSome then none else t.etcd.current name) response)
    (hsucceeded : response.succeeded = true) (hkind : c.kind = .delete)
    (hread : c.read = some existing) (hckey : c.key = name) (hbefore : c.before = t.etcd.current name)
    (hafter : c.after
      = (t.etcd.txn (deleteRequest (modIs name existing.modRevision) name)).state.current name) :
    store.Meets c := by
  have hreplaces : store.Replaces c none := replaces_of_knows hcomparable hsame hknows
    (hdone.holds hsucceeded) hread hckey hbefore fun h => by cases h
  unfold Meets
  rw [hkind]
  refine ⟨hreplaces, ?_⟩
  obtain ⟨_, value, -, hvalue, hvaluekey, -⟩ := hreplaces
  rw [hbefore] at hvalue
  have hlive : t.etcd.live name = some value :=
    FakeState.WellKept.live_eq_some_iff.mpr ⟨hvalue, hvaluekey.trans hckey⟩
  rw [hafter, hdone.current hsucceeded, if_pos (locale.same_refl name), hlive]
  rfl

/-! ### The calls under the discipline -/

open Discipline (OnOk)

/-- What is left to know after a hook. -/
theorem wp_hook_ok (p : Prog E ε ρ) :
    (store.discipline key promise).Wp i (hook p)
      (OnOk fun value t => Grows key s t ∧ p.MayReturn value) s :=
  wp_hook fun _ _ hst _ hmay value heq => ⟨hst, hmay value heq⟩

theorem wp_finish (finish : Prog E ε Unit) (t : StoreState locale β E) :
    (store.discipline key promise).Wp i (hook finish) (fun _ _ => True) t :=
  wp_hook fun _ _ _ _ _ => trivial

/-- What a read leaves to know. -/
theorem wp_readStored_ok (name : JsString) (ns : Option JsString) :
    (store.discipline key promise).Wp i (store.readStored name ns)
      (OnOk fun existing t => Grows key s t
        ∧ ∀ stored ∈ existing, store.HasRead key (store.key name ns) stored t) s :=
  wp_readStored name ns fun _ _ hst _ hknows _ heq =>
    ⟨hst, fun stored hstored => hknows stored (heq.trans (congrArg Except.ok hstored))⟩

theorem wp_createNamed (name : JsString) (obj : Storable β)
    (hcomparable : locale.Same (store.key name obj.objectMeta.namespace) key →
      locale.Comparable (store.key name obj.objectMeta.namespace))
    (hpromise : ∀ c, store.MadeFrom key i s c → c.kind = .create → promise c)
    (hs : (store.discipline key promise).inv s) :
    (store.discipline key promise).Wp i (store.createNamed i name obj)
      (OnOk fun result t => ∃ stored revision,
        result = stored.withResourceVersion (revisionText revision)
          ∧ stored.metadata = obj.metadata
          ∧ Made i .create (store.key name obj.objectMeta.namespace) stored revision t) s := by
  refine Discipline.wp_bind_ok hs (wp_readStored_ok name _) fun existing t ht ⟨hst, _⟩ => ?_
  cases existing with
  | some existing => exact Discipline.wp_throw_ok
  | none =>
    simp only [Option.isSome_none, Bool.false_eq_true, if_false]
    refine Discipline.wp_bind_ok ht (wp_hook_ok _) fun ⟨body, finishCreate⟩ u hu ⟨htu, _⟩ => ?_
    refine Discipline.wp_bind_ok (R := fun made v => made.1.metadata = obj.metadata
      ∧ Made i .create (store.key name obj.objectMeta.namespace) made.1 made.2.header.revision v)
      hu ?_ ?_
    · refine Discipline.wp_onError_ok hu ?_ fun v _ => wp_finish (finishCreate false) v
      refine Discipline.wp_bind_ok hu (wp_hook_ok _) fun body' v hv ⟨huv, _⟩ => ?_
      refine Discipline.wp_bind_ok (R := fun response w => response.succeeded = true →
        Made i .create (store.key name obj.objectMeta.namespace)
          { obj with body := body' } response.header.revision w) hv ?_ ?_
      · refine wp_commit_put (store.key_ne_nil name _) ⟨fun _ _ _ => rfl, fun _ _ _ => rfl,
          fun _ _ _ => rfl, fun _ _ _ => rfl⟩ (fun _ _ _ => ⟨rfl, rfl, rfl, rfl⟩) ?_ ?_ ?_
        · intro w revision s' _ hw hclause hsame hstores
          exact ⟨(hw.1.version_eq_zero (hcomparable hsame)).mp hclause, hstores⟩
        · exact fun c hmade hkind _ _ _ =>
            hpromise c (hmade.of_grows ((hst.trans htu).trans huv)) hkind
        · exact fun response w _ _ hmade => Discipline.onOk_ok hmade
      · intro response w _ hmade
        cases hsucceeded : response.succeeded with
        | false => exact Discipline.wp_throw_ok
        | true =>
          refine Discipline.wp_pure fun x hwx _ => Discipline.onOk_ok ⟨rfl, ?_⟩
          exact (hmade hsucceeded).grows hwx
    · rintro ⟨stored, response⟩ v hv ⟨hmeta, hmade⟩
      refine Discipline.wp_bind_ok hv (wp_hook_ok _) fun _ w _ ⟨hvw, _⟩ => ?_
      refine Discipline.wp_pure fun x hwx _ => Discipline.onOk_ok ?_
      exact ⟨stored, _, rfl, hmeta, (hmade.grows hvw).grows hwx⟩

/-- The namespace an object is kept under. -/
def namespaceOf (store : Store β E ε) (metadata : ObjectMeta) : Option JsString :=
  if store.opts.namespaced && !truthy metadata.namespace then some (js "default")
  else metadata.namespace

/-- The names `create` may give its object. -/
def namesOf (draws : Draws) (metadata : ObjectMeta) : List JsString :=
  if !truthy metadata.name && truthy metadata.generateName then
    draws.names.map (metadata.generateName.getD [] ++ ·)
  else [metadata.name.getD []]

theorem wp_namespaceExists (hs : (store.discipline key promise).inv s) (ns : JsString) :
    (store.discipline key promise).Wp i (store.namespaceExists ns) (OnOk fun _ t => Grows key s t) s := by
  have hkey : js "/registry/namespaces/" ++ ns ≠ [] := by
    have hinitial : js "/registry/namespaces/" ≠ [] := by decide
    simp [hinitial]
  refine Discipline.wp_bind_ok (R := fun _ t => Grows key s t) hs ?_ fun response t ht hst => ?_
  · exact wp_get hkey fun _ _ hst _ => Discipline.onOk_ok hst
  · cases response.kvs[0]? with
    | none => exact Discipline.wp_pure fun u htu _ => Discipline.onOk_ok (hst.trans htu)
    | some kv =>
      dsimp only
      cases store.parseNamespace kv.value.toString with
      | none => exact Discipline.wp_throw_ok
      | some value => exact Discipline.wp_pure fun u htu _ => Discipline.onOk_ok (hst.trans htu)

theorem wp_createNamespace (hs : (store.discipline key promise).inv s) (metadata : ObjectMeta) :
    (store.discipline key promise).Wp i (store.createNamespace metadata)
      (OnOk fun result t => Grows key s t
        ∧ result = { metadata with «namespace» := store.namespaceOf metadata }) s := by
  unfold createNamespace
  split
  · rename_i hnamespaced
    refine Discipline.wp_bind_ok hs (wp_namespaceExists hs _) fun found t _ hst => ?_
    cases found with
    | false => exact Discipline.wp_throw_ok
    | true =>
      refine Discipline.wp_pure fun u htu _ => Discipline.onOk_ok ⟨hst.trans htu, ?_⟩
      cases hns : truthy metadata.namespace with
      | false => simp [namespaceOf, hnamespaced, hns]
      | true =>
        obtain ⟨ns, heq, -⟩ := truthy_iff.mp hns
        rw [heq] at hns
        simp [namespaceOf, heq, hns]
  · rename_i hnamespaced
    split
    · exact Discipline.wp_throw_ok
    · exact Discipline.wp_pure fun u hsu _ =>
        Discipline.onOk_ok ⟨hsu, by simp [namespaceOf, hnamespaced]⟩

theorem wp_generateName (hs : (store.discipline key promise).inv s) (generateNamePrefix : JsString)
    (ns : Option JsString) (drawn : List JsString) :
    (store.discipline key promise).Wp i (store.generateName generateNamePrefix ns drawn)
      (OnOk fun name t => Grows key s t ∧ name ∈ drawn.map (generateNamePrefix ++ ·)) s := by
  induction drawn generalizing s with
  | nil => exact Discipline.wp_throw_ok
  | cons next draws ih =>
    refine Discipline.wp_bind_ok hs (wp_readStored_ok _ ns) fun existing t ht ⟨hst, _⟩ => ?_
    cases existing with
    | none => exact Discipline.wp_pure fun _ htu _ => Discipline.onOk_ok ⟨hst.trans htu, by simp⟩
    | some existing =>
      refine (ih ht).mono fun outcome u _ h name heq => ?_
      obtain ⟨htu, hname⟩ := h name heq
      exact ⟨hst.trans htu, List.mem_cons_of_mem _ hname⟩

theorem wp_createName (hs : (store.discipline key promise).inv s) (draws : Draws) (metadata : ObjectMeta) :
    (store.discipline key promise).Wp i (store.createName draws metadata)
      (OnOk fun name t => Grows key s t ∧ name ∈ namesOf draws metadata) s := by
  unfold createName namesOf
  split
  · exact wp_generateName hs _ _ draws.names
  · exact Discipline.wp_pure fun _ hst _ => Discipline.onOk_ok ⟨hst, by simp⟩

theorem wp_create (draws : Draws) (input : Storable β)
    (hcomparable : ∀ name ∈ namesOf draws input.objectMeta,
      locale.Same (store.key name (store.namespaceOf input.objectMeta)) key →
        locale.Comparable (store.key name (store.namespaceOf input.objectMeta)))
    (hpromise : ∀ c, store.MadeFrom key i s c → c.kind = .create → promise c)
    (hs : (store.discipline key promise).inv s) :
    (store.discipline key promise).Wp i (store.create i draws input)
      (OnOk fun result t => ∃ name ∈ namesOf draws input.objectMeta, ∃ stored revision,
        result = stored.withResourceVersion (revisionText revision)
          ∧ Made i .create (store.key name (store.namespaceOf input.objectMeta)) stored revision t)
      s := by
  unfold create
  cases hmetadata : input.metadata with
  | none => exact Discipline.wp_throw_ok
  | some metadata =>
    have hmeta : input.objectMeta = metadata := by simp [Storable.objectMeta, hmetadata]
    rw [hmeta] at hcomparable ⊢
    dsimp only
    split
    · exact Discipline.wp_throw_ok
    · refine Discipline.wp_bind_ok (R := fun _ t => Grows key s t) hs
        (Discipline.wp_ofExcept fun _ hst _ _ _ => hst) fun _ t ht hst => ?_
      refine Discipline.wp_bind_ok ht (wp_createNamespace ht metadata)
        fun metadata' u hu ⟨htu, hns⟩ => ?_
      refine Discipline.wp_bind_ok hu (wp_createName hu draws metadata')
        fun name v hv ⟨huv, hname⟩ => ?_
      have hsv := (hst.trans htu).trans huv
      split
      · exact Discipline.wp_throw_ok
      · have hnames : namesOf draws metadata' = namesOf draws metadata := by rw [hns]; rfl
        rw [hnames] at hname
        refine (wp_createNamed name _ ?_ (fun c hmade => hpromise c (hmade.of_grows hsv)) hv).mono
          fun outcome w _ h result heq => ?_
        · show locale.Same (store.key name metadata'.namespace) key →
            locale.Comparable (store.key name metadata'.namespace)
          rw [hns]
          exact hcomparable name hname
        · obtain ⟨stored, revision, hresult, -, hmade⟩ := h result heq
          have hkey : store.key name metadata'.namespace
              = store.key name (store.namespaceOf metadata) := by rw [hns]
          exact ⟨name, hname, stored, revision, hresult, hkey ▸ hmade⟩

theorem wp_delete (acted : Option (Storable β)) (name : JsString) (ns : Option JsString)
    (hcomparable : locale.Same (store.key name ns) key → locale.Comparable (store.key name ns))
    (hpromise : ∀ c, store.MadeFrom key i s c → c.kind = .delete → c.acted = acted → promise c)
    (rounds : Nat) (hs : (store.discipline key promise).inv s) :
    (store.discipline key promise).Wp i (store.delete i acted name ns rounds)
      (OnOk fun _ t => Grows key s t) s := by
  induction rounds generalizing s with
  | zero => exact Discipline.wp_throw_ok
  | succ rounds ih =>
    rw [Store.delete]
    refine Discipline.wp_bind_ok hs (wp_readStored_ok name ns) fun existing t ht ⟨hst, hknows⟩ => ?_
    cases existing with
    | none => exact Discipline.wp_pure fun u htu _ => Discipline.onOk_ok (hst.trans htu)
    | some existing =>
      have hknows := hknows existing rfl
      have hne := store.key_ne_nil name ns
      dsimp only
      generalize store.key name ns = k at hne hcomparable hknows ⊢
      refine Discipline.wp_bind_ok ht (wp_hook_ok _) fun _ u hu ⟨htu, _⟩ => ?_
      have hsu := hst.trans htu
      refine Discipline.wp_bind_ok (R := fun _ v => Grows key s v) hu ?_ ?_
      · refine wp_commit (modIs k existing.modRevision) ⟨fun _ _ _ => rfl,
          fun _ _ _ => rfl, fun _ _ _ => rfl, fun _ _ _ => rfl⟩ ?_ ?_ ?_
        · intro v huv hv
          have hkept : v.etcd.WellKept := hv.1
          obtain ⟨response, hdone⟩ := txn_delete hkept hne (modIs k existing.modRevision)
          refine ⟨_, response, hdone, fun hsucceeded hsame => ?_⟩
          exact meets_delete hcomparable hsame (hknows.knows.grows (htu.trans huv)) hdone hsucceeded rfl rfl
            rfl rfl rfl
        · exact fun _ _ _ hmade => hpromise _ (hmade.of_grows hsu) rfl rfl
        · exact fun response v huv _ _ => Discipline.onOk_ok (hsu.trans huv)
      · intro response v hv hsv
        cases hsucceeded : response.succeeded with
        | false =>
          refine (ih (fun c hmade => hpromise c (hmade.of_grows hsv)) hv).mono
            fun outcome w _ h value heq => ?_
          exact hsv.trans (h value heq)
        | true =>
          refine Discipline.wp_bind_ok hv (wp_hook_ok _) fun _ w _ ⟨hvw, _⟩ => ?_
          exact Discipline.wp_pure fun x hwx _ => Discipline.onOk_ok ((hsv.trans hvw).trans hwx)

/-- A body that `update` may store of its object, over one it has read. -/
def MayUpdate (store : Store β E ε) (skipValidateUpdate : Bool) (obj existing : Storable β)
    (body : β) : Prop :=
  ∃ begun finishUpdate, (store.hooks.beginUpdate obj existing).MayReturn (begun, finishUpdate)
    ∧ if skipValidateUpdate then body = begun
      else (store.hooks.validateUpdate { obj with body := begun } existing).MayReturn body

/-- An object that `update` may store for one it is given. -/
def MayStore (store : Store β E ε) (skipValidateUpdate : Bool) (obj stored : Storable β) : Prop :=
  ∃ existing body, stored = { obj with body } ∧ store.MayUpdate skipValidateUpdate obj existing body

/-- What an update stores. -/
def Updated (store : Store β E ε) (skipValidateUpdate : Bool) (obj : Storable β) (c : Commit β) :
    Prop :=
  ∃ existing body, c.read = some existing ∧ c.stored = some { obj with body }
    ∧ store.MayUpdate skipValidateUpdate obj existing.obj body

/-- An update of what the call has read. -/
theorem meets_update {name : JsString} {existing : Stored β} {wanted : Option JsString}
    (hcomparable : locale.Same name key → locale.Comparable name) (hsame : locale.Same name key)
    (hknows : store.Knows key name existing t)
    (hclause : t.etcd.evaluateCompare (modIs name existing.modRevision) = true)
    (hwanted : truthy wanted = true → wanted = some existing.resourceVersion)
    (hkind : c.kind = .update wanted) (hread : c.read = some existing) (hckey : c.key = name)
    (hbefore : c.before = t.etcd.current name) (hstores : store.Stores c) : store.Meets c := by
  unfold Meets
  rw [hkind]
  exact ⟨replaces_of_knows hcomparable hsame hknows hclause hread hckey hbefore hwanted, hstores⟩

theorem wp_updateStored (rounds : Nat) (name : JsString) (obj : Storable β) (existing : Stored β)
    (skipValidateUpdate : Bool)
    (hcomparable : ∀ n, n = name ∨ n = obj.objectMeta.name.getD [] →
      locale.Same (store.key n obj.objectMeta.namespace) key →
        locale.Comparable (store.key n obj.objectMeta.namespace))
    (hknows : store.Knows key (store.key name obj.objectMeta.namespace) existing s)
    (hwanted : truthy obj.objectMeta.resourceVersion = true →
      obj.objectMeta.resourceVersion = some existing.resourceVersion)
    (hpromise : ∀ c, store.MadeFrom key i s c → c.kind = .update obj.objectMeta.resourceVersion →
      c.key = store.key name obj.objectMeta.namespace →
      store.Updated skipValidateUpdate obj c → promise c)
    (hremoval : ∀ c (stored : Storable β) revision, store.MadeFrom key i s c → c.kind = .delete →
      c.acted = some (stored.withResourceVersion (revisionText revision)) →
      stored.metadata = obj.metadata → stored.finalizedPendingDeletion = true → promise c)
    (hs : (store.discipline key promise).inv s) :
    (store.discipline key promise).Wp i
      (store.updateStored i rounds name obj existing skipValidateUpdate)
      (OnOk fun result t => ∃ stored revision,
        result = stored.withResourceVersion (revisionText revision)
          ∧ store.MayStore skipValidateUpdate obj stored
          ∧ Made i (.update obj.objectMeta.resourceVersion) (store.key name obj.objectMeta.namespace)
            stored revision t) s := by
  unfold updateStored
  have hne := store.key_ne_nil name obj.objectMeta.namespace
  have hname := hcomparable name (.inl rfl)
  generalize store.key name obj.objectMeta.namespace = k at hne hname hknows hpromise ⊢
  refine Discipline.wp_bind_ok hs (wp_hook_ok _) fun ⟨body, finishUpdate⟩ t ht ⟨hst, hbegin⟩ => ?_
  refine Discipline.wp_bind_ok (R := fun made v => Grows key s v
    ∧ store.MayStore skipValidateUpdate obj made.1
    ∧ Made i (.update obj.objectMeta.resourceVersion) k made.1 made.2.header.revision v) ht ?_ ?_
  · refine Discipline.wp_onError_ok ht ?_ fun v _ => wp_finish (finishUpdate false) v
    refine Discipline.wp_bind_ok (R := fun body' u => Grows key t u
      ∧ store.MayUpdate skipValidateUpdate obj existing.obj body') ht ?_
      fun body' u hu ⟨htu, hmay⟩ => ?_
    · cases skipValidateUpdate with
      | true =>
        exact Discipline.wp_pure fun u htu _ => Discipline.onOk_ok ⟨htu, body, _, hbegin, rfl⟩
      | false =>
        refine (wp_hook_ok _).mono fun outcome u _ hvalidated value heq => ?_
        obtain ⟨htu, hvalue⟩ := hvalidated value heq
        exact ⟨htu, body, _, hbegin, hvalue⟩
    have hsu := hst.trans htu
    refine Discipline.wp_bind_ok (R := fun response w => Grows key s w ∧ (response.succeeded = true →
      Made i (.update obj.objectMeta.resourceVersion) k { obj with body := body' }
        response.header.revision w)) hu ?_ ?_
    · refine wp_commit_put hne ⟨fun _ _ _ => rfl, fun _ _ _ => rfl, fun _ _ _ => rfl,
        fun _ _ _ => rfl⟩ (fun _ _ _ => ⟨rfl, rfl, rfl, rfl⟩) ?_ ?_ ?_
      · intro w revision s' huw _ hclause hsame hstores
        exact meets_update hname hsame (hknows.grows (hsu.trans huw)) hclause hwanted rfl
          rfl rfl rfl hstores
      · exact fun c hmade hkind hkey hstored hread =>
          hpromise c (hmade.of_grows hsu) hkind hkey ⟨existing, body', hread, hstored, hmay⟩
      · exact fun response w huw _ hmade => Discipline.onOk_ok ⟨hsu.trans huw, hmade⟩
    · intro response w _ ⟨hsw, hmade⟩
      cases hsucceeded : response.succeeded with
      | false => exact Discipline.wp_throw_ok
      | true =>
        refine Discipline.wp_pure fun x hwx _ =>
          Discipline.onOk_ok ⟨hsw.trans hwx, ⟨existing.obj, body', rfl, hmay⟩, ?_⟩
        exact (hmade hsucceeded).grows hwx
  · rintro ⟨stored, response⟩ v hv ⟨hsv, hstore, hmade⟩
    have hmeta : stored.metadata = obj.metadata := by
      obtain ⟨_, _, hstored, -⟩ := hstore
      replace hstored : stored = _ := hstored
      rw [hstored]
    have hobject : stored.objectMeta = obj.objectMeta := by
      rw [Storable.objectMeta, hmeta, Storable.objectMeta]
    refine Discipline.wp_bind_ok hv (wp_hook_ok _) fun _ w hw ⟨hvw, _⟩ => ?_
    dsimp only at hmade ⊢
    rw [hobject]
    split
    · rename_i hfinal
      have hremoved : ∀ c, store.MadeFrom key i w c → c.kind = .delete →
          c.acted = some (stored.withResourceVersion (revisionText response.header.revision)) →
          promise c := fun c hc hkind hacted =>
        hremoval c stored _ (hc.of_grows (hsv.trans hvw)) hkind hacted hmeta hfinal
      refine Discipline.wp_bind_ok hw
        (wp_delete _ _ _ (hcomparable _ (.inr rfl)) hremoved rounds hw) fun _ x _ hwx => ?_
      refine Discipline.wp_pure fun y hxy _ => Discipline.onOk_ok ⟨stored, _, rfl, hstore, ?_⟩
      exact ((hmade.grows hvw).grows hwx).grows hxy
    · refine Discipline.wp_pure fun x hwx _ => Discipline.onOk_ok ⟨stored, _, rfl, hstore, ?_⟩
      exact (hmade.grows hvw).grows hwx

/-- The object that an update stores, but for its body. -/
def updateObject (store : Store β E ε) (input : Storable β) : Storable β :=
  { store.defaultTypeMeta input with
    metadata := some { input.objectMeta with «namespace» := store.namespaceOf input.objectMeta } }

theorem wp_update (rounds : Nat) (name : JsString) (input : Storable β) (skipValidateUpdate : Bool)
    (hcomparable : ∀ n, n = name ∨ n = input.objectMeta.name.getD [] →
      locale.Same (store.key n (store.namespaceOf input.objectMeta)) key →
        locale.Comparable (store.key n (store.namespaceOf input.objectMeta)))
    (hpromise : ∀ c, store.MadeFrom key i s c → c.kind = .update input.objectMeta.resourceVersion →
      c.key = store.key name (store.namespaceOf input.objectMeta) →
      store.Updated skipValidateUpdate (store.updateObject input) c → promise c)
    (hremoval : ∀ c (stored : Storable β) revision, store.MadeFrom key i s c → c.kind = .delete →
      c.acted = some (stored.withResourceVersion (revisionText revision)) →
      stored.objectMeta = { input.objectMeta with
        «namespace» := store.namespaceOf input.objectMeta } →
      stored.finalizedPendingDeletion = true → promise c)
    (hs : (store.discipline key promise).inv s) :
    (store.discipline key promise).Wp i (store.update i rounds name input skipValidateUpdate)
      (OnOk fun result t => ∃ stored revision,
        result = stored.withResourceVersion (revisionText revision)
          ∧ store.MayStore skipValidateUpdate (store.updateObject input) stored
          ∧ Made i (.update input.objectMeta.resourceVersion)
            (store.key name (store.namespaceOf input.objectMeta)) stored revision t) s := by
  unfold update
  cases hmetadata : input.metadata with
  | none => exact Discipline.wp_throw_ok
  | some metadata =>
    have hmeta : input.objectMeta = metadata := by simp [Storable.objectMeta, hmetadata]
    have hobject : store.updateObject input = { store.defaultTypeMeta input with
        metadata := some { metadata with «namespace» := store.namespaceOf metadata } } := by
      rw [updateObject, hmeta]
    rw [hobject] at hpromise ⊢
    rw [hmeta] at hcomparable hpromise hremoval ⊢
    dsimp only
    refine Discipline.wp_bind_ok (R := fun _ t => Grows key s t) hs
      (Discipline.wp_ofExcept fun _ hst _ _ _ => hst) fun _ t ht hst => ?_
    split
    · exact Discipline.wp_throw_ok
    · have hns : (if (store.opts.namespaced && !truthy metadata.namespace) = true then
          { metadata with «namespace» := some (js "default") } else metadata)
          = { metadata with «namespace» := store.namespaceOf metadata } := by
        unfold namespaceOf
        split <;> rfl
      rw [hns]
      refine Discipline.wp_bind_ok ht (wp_readStored_ok name _)
        fun existing u hu ⟨htu, hknows⟩ => ?_
      have hsu := hst.trans htu
      cases existing with
      | none => exact Discipline.wp_throw_ok
      | some existing =>
        dsimp only
        split
        · exact Discipline.wp_throw_ok
        · rename_i hversion
          have hwanted : truthy metadata.resourceVersion = true →
              metadata.resourceVersion = some existing.resourceVersion := by
            intro htruthy
            simpa [htruthy] using hversion
          refine (wp_updateStored rounds name { store.defaultTypeMeta input with
            metadata := some { metadata with «namespace» := store.namespaceOf metadata } } existing
            skipValidateUpdate hcomparable (hknows existing rfl).knows hwanted
            (fun c hc => hpromise c (hc.of_grows hsu))
            (fun c stored revision hc hkind hacted hstored => hremoval c stored revision
              (hc.of_grows hsu) hkind hacted (by rw [Storable.objectMeta, hstored]; rfl)) hu).mono
            fun outcome w _ h result heq => ?_
          exact h result heq

end Store

/-! ## Runs -/

inductive StoreCall (β : Type) where
  | create (draws : Draws) (input : Storable β)
  | update (rounds : Nat) (name : JsString) (input : Storable β) (skipValidateUpdate : Bool)
  | delete (rounds : Nat) (name : JsString) (ns : Option JsString)

inductive StoreAnswer (β : Type) where
  | object (obj : Storable β)
  | removed (existed : Bool)

/-- A request that is no call of the store. -/
def StoreState.request (s : StoreState locale β E) : StoreRequest → StoreState locale β E
  | .write request => { s with etcd := (s.etcd.execWrite request).state }
  | .compact revision => { s with etcd := (s.etcd.compact revision).state }

/-- A new etcd, and no commits. -/
def StoreState.IsInitial (s : StoreState locale β E) : Prop :=
  (∃ retainedRevisions, s.etcd = FakeState.initial locale retainedRevisions) ∧ s.commits = []

namespace Store

variable (store : Store β E ε)

/-- Any number of calls, between any other requests. -/
def calls (locale : Etcd.Locale) : Interleaving (StoreState locale β E) (StoreError ε) (StoreAnswer β)
    (StoreCall β) StoreRequest where
  body i
    | .create draws input => do return .object (← store.create i draws input)
    | .update rounds name input skipValidateUpdate => do
      return .object (← store.update i rounds name input skipValidateUpdate)
    | .delete rounds name ns => do return .removed (← store.delete i none name ns rounds)
  disturb := StoreState.request

/-- The keys a call may write. -/
def keysOf : StoreCall β → List JsString
  | .create draws input =>
    (namesOf draws input.objectMeta).map (store.key · (store.namespaceOf input.objectMeta))
  | .update _ name input _ =>
    [name, input.objectMeta.name.getD []].map (store.key · (store.namespaceOf input.objectMeta))
  | .delete _ name ns => [store.key name ns]

abbrev CallPool (locale : Etcd.Locale) (β E ε : Type) :=
  Base.Pool (StoreState locale β E) (StoreError ε) (StoreAnswer β) (StoreCall β)

/-- No request but those of the store writes the key. -/
def StoreOnly (key : JsString) (m : CallPool locale β E ε) :
    PoolStep (StoreCall β) StoreRequest → Prop
  | .disturb (.write write) =>
    ∀ record ∈ (m.store.etcd.execWrite write).records, record.key ≠ key
  | _ => True

/-- The key is one key: no request writes another string that the
collation takes for it, and the comparisons of the calls look at the keys
they are about. -/
def StoreDistinct (key : JsString) (m : CallPool locale β E ε) :
    PoolStep (StoreCall β) StoreRequest → Prop
  | .disturb (.write write) =>
    ∀ record ∈ (m.store.etcd.execWrite write).records, locale.Same record.key key → record.key = key
  | .start call => ∀ name ∈ store.keysOf call, locale.Same name key → locale.Comparable name
  | _ => True

/-- The steps that meet both. -/
def StoreProper (key : JsString) (m : CallPool locale β E ε)
    (act : PoolStep (StoreCall β) StoreRequest) : Prop :=
  StoreOnly key m act ∧ store.StoreDistinct key m act

/-- What creates, updates and deletes of a key come to. -/
structure Serialised (key : JsString) (m : CallPool locale β E ε) : Prop where
  /-- An update replaced the version it had read, and the one asked for. -/
  replaced : ∀ c ∈ m.store.commitsOf key, ∀ wanted, c.kind = .update wanted → store.Replaces c wanted
  /-- Every commit found what the one before it left. -/
  chained : ∀ (front : List (Commit β)) (c : Commit β) (rest : List (Commit β)),
    m.store.commitsOf key = front ++ c :: rest → c.before = leftBy front
  found : m.store.etcd.current key = leftBy (m.store.commitsOf key)
  /-- Between two creates there is a delete. -/
  oneCreate : ∀ (front : List (Commit β)) (c : Commit β) (mid : List (Commit β)) (c' : Commit β)
    (rest : List (Commit β)), m.store.commitsOf key = front ++ c :: (mid ++ c' :: rest) →
    c.kind = .create → c'.kind = .create → ∃ d ∈ mid, d.kind = .delete
  /-- A call that has made no commit has changed nothing. -/
  unchanged : ∀ i, (∀ c ∈ ((store.calls locale).exec m (.advance i)).store.commits, c.call ≠ i) →
    ((store.calls locale).exec m (.advance i)).store.etcd.current key = m.store.etcd.current key
  /-- An answer is what was stored, with the revision it was stored at. -/
  answered : ∀ i call obj, m.calls[i]? = some (call, .done (.ok (.object obj))) →
    ∃ c ∈ m.store.commits, ∃ stored, c.call = i ∧ c.key ∈ store.keysOf call
      ∧ c.stored = some stored ∧ obj = stored.withResourceVersion (revisionText c.revision)
      ∧ (locale.Same c.key key → store.Stores c)

variable {store} {key : JsString} {s : StoreState locale β E}

theorem KeyLog.oneCreate (h : store.KeyLog key s) {front mid rest : List (Commit β)}
    {c c' : Commit β} (hsplit : s.commitsOf key = front ++ c :: (mid ++ c' :: rest))
    (hc : c.kind = .create) (hc' : c'.kind = .create) : ∃ d ∈ mid, d.kind = .delete := by
  have hall : ∀ d, d = c ∨ d ∈ mid ∨ d = c' → store.Meets d := by
    intro d hd
    apply h.meets d
    rw [hsplit]
    simp only [List.mem_append, List.mem_cons]
    grind
  have hnone : c'.before = none := by
    have hmeets := hall c' (.inr (.inr rfl))
    rw [Meets, hc'] at hmeets
    exact hmeets.1
  have hbefore := h.chained (front ++ c :: mid) c' rest (by simp [hsplit])
  have hleft : ∀ d, d = c ∨ d ∈ mid → d.after = none → d.kind = .delete := by
    intro d hd hafter
    by_contra hkind
    obtain ⟨obj, value, -, hvalue, -⟩ := (hall d (hd.imp_right .inl)).stores hkind
    rw [hafter] at hvalue
    cases hvalue
  rw [hnone] at hbefore
  rcases List.eq_nil_or_concat mid with rfl | ⟨init, d, rfl⟩
  · rw [leftBy_concat] at hbefore
    have hdelete := hleft c (.inl rfl) hbefore.symm
    rw [hc] at hdelete
    cases hdelete
  · rw [List.concat_eq_append, ← List.cons_append, ← List.append_assoc, leftBy_concat] at hbefore
    exact ⟨d, by simp, hleft d (.inr (by simp)) hbefore.symm⟩

/-! ### The rule for runs -/

/-- What a call answers is in the log. -/
def Answered (store : Store β E ε) (i : Nat) (call : StoreCall β) (answer : StoreAnswer β)
    (s : StoreState locale β E) : Prop :=
  ∀ obj, answer = .object obj → ∃ c ∈ s.commits, ∃ stored, c.call = i ∧ c.kind ≠ .delete
    ∧ c.key ∈ store.keysOf call ∧ c.stored = some stored
    ∧ obj = stored.withResourceVersion (revisionText c.revision)

theorem Made.answered {i : Nat} {kind : CommitKind} {name : JsString} {stored : Storable β}
    {revision : Nat} {call : StoreCall β} {result : Storable β} (h : Made i kind name stored revision s)
    (hkind : kind ≠ .delete) (hname : name ∈ store.keysOf call)
    (hresult : result = stored.withResourceVersion (revisionText revision)) :
    store.Answered i call (.object result) s := by
  intro obj heq
  cases heq
  obtain ⟨c, hc, hcall, rfl, hkey, hstored, hrevision⟩ := h
  exact ⟨c, hc, stored, hcall, hkind, hkey ▸ hname, hstored, hrevision ▸ hresult⟩

/-- A call that starts with comparable keys keeps the discipline. -/
theorem wp_call (call : StoreCall β) (i : Nat)
    (hcomparable : ∀ name ∈ store.keysOf call, locale.Same name key → locale.Comparable name)
    (hpromise : ∀ c, c.call = i → promise c) (hs : (store.discipline key promise).inv s) :
    (store.discipline key promise).Wp i ((store.calls locale).body i call)
      (Discipline.OnOk (store.Answered i call)) s := by
  cases call with
  | create draws input =>
    have hcreate := wp_create (s := s) (i := i) draws input
      (fun name hname => hcomparable _ (List.mem_map.mpr ⟨name, hname, rfl⟩))
      (fun c hc _ => hpromise c hc.call) hs
    refine Discipline.wp_bind_ok hs hcreate fun result t _ ⟨name, hname, stored, revision, hresult,
      hmade⟩ => ?_
    refine Discipline.wp_pure fun u htu _ => Discipline.onOk_ok ?_
    exact (hmade.grows htu).answered (fun h => by cases h) (List.mem_map.mpr ⟨name, hname, rfl⟩) hresult
  | update rounds name input skipValidateUpdate =>
    have hmem : ∀ n, n = name ∨ n = input.objectMeta.name.getD [] →
        store.key n (store.namespaceOf input.objectMeta)
          ∈ store.keysOf (.update rounds name input skipValidateUpdate) :=
      fun n hn => List.mem_map.mpr ⟨n, by simpa using hn, rfl⟩
    have hupdate := wp_update (s := s) (i := i) rounds name input skipValidateUpdate
      (fun n hn => hcomparable _ (hmem n hn)) (fun c hc _ _ _ => hpromise c hc.call)
      (fun c _ _ hc _ _ _ _ => hpromise c hc.call) hs
    refine Discipline.wp_bind_ok hs hupdate fun result t _ ⟨stored, revision, hresult, _, hmade⟩ => ?_
    refine Discipline.wp_pure fun u htu _ => Discipline.onOk_ok ?_
    exact (hmade.grows htu).answered (fun h => by cases h) (hmem name (.inl rfl)) hresult
  | delete rounds name ns =>
    have hdelete := wp_delete (s := s) (i := i) none name ns
      (hcomparable _ (List.mem_singleton_self _)) (fun c hc _ _ => hpromise c hc.call) rounds hs
    refine Discipline.wp_bind_ok hs hdelete fun existed t _ _ => ?_
    refine Discipline.wp_pure fun u _ _ => Discipline.onOk_ok ?_
    exact fun obj heq => by cases heq

theorem ages_request (h : s.etcd.WellKept) {request : StoreRequest}
    (hother : ∀ write, request = .write write →
      ∀ record ∈ (s.etcd.execWrite write).records, ¬ locale.Same record.key key) :
    (s.request request).etcd.WellKept ∧ s.etcd.revision ≤ (s.request request).etcd.revision
      ∧ (s.request request).etcd.current key = s.etcd.current key := by
  cases request with
  | write write =>
    refine ⟨h.execWrite write, ?_, s.etcd.current_execWrite_of_other (hother write rfl)⟩
    obtain ⟨base, hbase, hstate, -⟩ := s.etcd.execWrite_effect write
    show s.etcd.revision ≤ (s.etcd.execWrite write).state.revision
    rw [hstate, FakeState.appendRecords_revision]
    rcases hbase with rfl | ⟨rfl, -⟩
    · exact Nat.le_succ _
    · exact Nat.le_refl _
  | compact revision =>
    refine ⟨h.compact revision, ?_, s.etcd.current_compact revision key⟩
    show s.etcd.revision ≤ (s.etcd.compact revision).state.revision
    rw [FakeState.compact_revision]

theorem alone_request (h : Alone key s.etcd) (hkept : s.etcd.WellKept) {request : StoreRequest}
    (hcurrent : (s.request request).etcd.current key = s.etcd.current key) :
    Alone key (s.request request).etcd := by
  refine h.of_old (fun other value hvalue hle => ?_) fun other value own hvalue hown hlt hlt' => ?_
  · cases request with
    | write write => exact s.etcd.current_execWrite_of_old hvalue hle
    | compact revision => exact (s.etcd.current_compact revision other).symm.trans hvalue
  · rw [hcurrent] at hown
    exact absurd hlt' (Nat.not_lt_of_le (hkept.found hown).modRevision_le)

/-- A request that writes elsewhere is no more than the calls reckon
with. -/
theorem inv_request (h : (store.discipline key promise).inv s) {request : StoreRequest}
    (hother : ∀ write, request = .write write →
      ∀ record ∈ (s.etcd.execWrite write).records, ¬ locale.Same record.key key) :
    (store.discipline key promise).inv (s.request request)
      ∧ ∀ i, (store.discipline key promise).rely i s (s.request request) := by
  obtain ⟨hkept, hlog⟩ := h
  obtain ⟨hkept', hrevision, hcurrent⟩ := ages_request hkept hother
  have hcommits : (s.request request).commits = s.commits := by cases request <;> rfl
  have halone := alone_request hlog.alone hkept hcurrent
  refine ⟨⟨hkept', hlog.of_unchanged halone hcurrent ?_⟩, fun i => ⟨.of_unchanged hrevision hcurrent, ?_⟩⟩
  · exact congrArg (List.filter _) hcommits
  · exact hcommits ▸ List.prefix_refl _

theorem inv_initial (store : Store β E ε) (key : JsString) (h : s.IsInitial) :
    (store.discipline key promise).inv s := by
  obtain ⟨⟨retainedRevisions, hetcd⟩, hcommits⟩ := h
  refine ⟨hetcd ▸ FakeState.wellKept_initial locale retainedRevisions, ⟨?_, ?_, ?_, ?_⟩, ?_⟩
  · intro other value own hvalue
    simp [hetcd, FakeState.current, FakeState.revisionsOf, FakeState.initial, SortedMap.empty,
      SortedMap.get, currentValue] at hvalue
  · simp [StoreState.commitsOf, hcommits, hetcd, leftBy, FakeState.current, FakeState.revisionsOf,
      FakeState.initial, SortedMap.empty, SortedMap.get, currentValue]
  · intro front c rest hsplit
    simp [StoreState.commitsOf, hcommits] at hsplit
  · intro c hc
    simp [StoreState.commitsOf, hcommits] at hc
  · intro c hc
    simp [StoreState.commitsOf, hcommits] at hc

theorem sound_calls {m : CallPool locale β E ε}
    (h : (((store.calls locale).machine StoreState.IsInitial).guarded
      (store.StoreProper key)).Reach m) :
    Interleaving.Sound (store.discipline key fun _ => True) (fun i call => Discipline.OnOk (store.Answered i call))
      m := by
  refine Interleaving.sound (fun s hs => inv_initial store key hs) ?_ ?_ h
  · rintro m call ⟨-, hcomparable⟩ hinv
    exact wp_call call m.calls.length hcomparable (fun _ _ => trivial) hinv
  · rintro m request ⟨honly, hdistinct⟩ hinv
    refine inv_request hinv ?_
    rintro write rfl record hrecord hsame
    exact honly record hrecord (hdistinct record hrecord hsame)

/-- **Creates, updates and deletes of a key are serialised.** In every run
in which only calls of the store write the key, and it is one key to the
collation and to their comparisons, every update replaced exactly the
version it had read, there is a delete between two creates, a call that
has not committed has changed nothing, and an answer is what was stored,
with the revision it was stored at. -/
theorem calls_serialised {m : CallPool locale β E ε}
    (h : (((store.calls locale).machine StoreState.IsInitial).guarded
      (store.StoreProper key)).Reach m) : store.Serialised key m := by
  have hsound := sound_calls h
  obtain ⟨hkept, hlog, -⟩ := hsound.inv
  refine ⟨?_, hlog.chained, hlog.found, ?_, ?_, ?_⟩
  · intro c hc wanted hkind
    have hmeets := hlog.meets c hc
    rw [Meets, hkind] at hmeets
    exact hmeets.1
  · exact fun front c mid c' rest => hlog.oneCreate
  · intro i hnone
    have hadvance := @Interleaving.Sound.advance _ _ _ _ _ (store.calls locale) _ _ _ hsound i
    rcases hadvance with hsame | ⟨-, -, howes⟩
    · rw [hsame]
    · cases howes with
      | nothing _ hcurrent => exact hcurrent
      | commit c hcall hcommits _ _ =>
        exact absurd hcall (hnone c (hcommits ▸ List.mem_append_right _ (List.mem_singleton_self c)))
  · intro i call obj hcall
    obtain ⟨c, hc, stored, hi, hkind, hkey, hstored, hobj⟩ :=
      hsound.ended hcall (.object obj) rfl obj rfl
    refine ⟨c, hc, stored, hi, hkey, hstored, hobj, fun hsame => ?_⟩
    have hmem : c ∈ m.store.commitsOf key := List.mem_filter.mpr ⟨hc, by simpa using hsame⟩
    exact (hlog.meets c hmem).stores hkind

/-! ### Two calls at once -/

/-- A store of nodes, without hooks. -/
def nodes : Store Unit Unit Unit where
  opts :=
    { namespaced := false
      defaultQualifiedResource := js "nodes"
      singularQualifiedResource := js "node"
      apiVersion := some (js "v1")
      kind := some (js "Node") }
  json := .ofSpelling _
  parseNamespace _ := none
  hooks := .plain (fun obj => pure obj.body) fun obj _ => pure obj.body

def node (name : JsString) : Storable Unit where
  metadata := some { name := some name }
  body := ()

/-- The pool after steps from a new etcd. -/
def poolAfter (steps : List (PoolStep (StoreCall Unit) StoreRequest)) :
    CallPool rootLocale Unit Unit Unit :=
  steps.foldl (nodes.calls rootLocale).exec
    { store := { etcd := FakeState.initial rootLocale 3, ext := () } }

theorem reach_poolAfter
    {ok : CallPool rootLocale Unit Unit Unit → PoolStep (StoreCall Unit) StoreRequest → Prop}
    (steps : List (PoolStep (StoreCall Unit) StoreRequest)) (hok : ∀ m, ∀ step ∈ steps, ok m step) :
    (((nodes.calls rootLocale).machine StoreState.IsInitial).guarded ok).Reach (poolAfter steps) := by
  unfold poolAfter
  have hstart : (((nodes.calls rootLocale).machine StoreState.IsInitial).guarded ok).Reach
      { store := { etcd := FakeState.initial rootLocale 3, ext := () } } :=
    .start ⟨⟨⟨3, rfl⟩, rfl⟩, rfl⟩
  generalize ({ store := { etcd := FakeState.initial rootLocale 3, ext := () } } :
    CallPool rootLocale Unit Unit Unit) = m at hstart
  induction steps generalizing m with
  | nil => exact hstart
  | cons step steps ih =>
    refine ih (fun m act hact => hok m act (List.mem_cons_of_mem _ hact)) _ ?_
    exact hstart.step (l := step) ⟨rfl, hok m step List.mem_cons_self⟩

/-- Two creates of one name: each reads before the other commits. -/
def twoCreates (name : JsString) : List (PoolStep (StoreCall Unit) StoreRequest) :=
  [.start (.create {} (node name)), .start (.create {} (node name)), .advance 0, .advance 1,
    .advance 0, .advance 1]

theorem twoCreates_cases {name : JsString} {step : PoolStep (StoreCall Unit) StoreRequest}
    (h : step ∈ twoCreates name) :
    step = .start (.create {} (node name)) ∨ ∃ i, step = .advance i := by
  simp only [twoCreates, List.mem_cons, List.not_mem_nil, or_false] at h
  rcases h with rfl | rfl | rfl | rfl | rfl | rfl <;> simp

theorem twoCreates_storeOnly {name : JsString} (m : CallPool rootLocale Unit Unit Unit)
    (step : PoolStep (StoreCall Unit) StoreRequest) (h : step ∈ twoCreates name) {key : JsString} :
    StoreOnly key m step := by
  rcases twoCreates_cases h with rfl | ⟨i, rfl⟩ <;> trivial

/-- One of them succeeds. -/
theorem calls_serialised_two_creates :
    (poolAfter (twoCreates (js "a"))).store.commits.map (·.call) = [0]
      ∧ nodes.Serialised (js "/registry/nodes/a") (poolAfter (twoCreates (js "a"))) := by
  refine ⟨by decide +kernel, calls_serialised (reach_poolAfter (twoCreates (js "a")) ?_)⟩
  intro m step hstep
  refine ⟨twoCreates_storeOnly m step hstep, ?_⟩
  rcases twoCreates_cases hstep with rfl | ⟨i, rfl⟩
  · intro name hname _
    have hkeys : nodes.keysOf (.create {} (node (js "a"))) = [js "/registry/nodes/a"] := by decide
    rw [hkeys] at hname
    rw [List.mem_singleton.mp hname]
    exact Locale.comparable_of_isWellFormed (by decide)
  · trivial

/-- Of a name that is one lone surrogate both succeed. -/
theorem surrogateNode_not_serialised :
    (((nodes.calls rootLocale).machine StoreState.IsInitial).guarded
        (StoreOnly (js "/registry/nodes/" ++ [0xD800]))).Reach (poolAfter (twoCreates [0xD800]))
      ∧ ¬ nodes.Serialised (js "/registry/nodes/" ++ [0xD800]) (poolAfter (twoCreates [0xD800])) := by
  refine ⟨reach_poolAfter _ fun m step hstep => twoCreates_storeOnly m step hstep, fun h => ?_⟩
  have hkinds : ((poolAfter (twoCreates [0xD800])).store.commitsOf
      (js "/registry/nodes/" ++ [0xD800])).map (·.kind) = [.create, .create] := by decide +kernel
  obtain ⟨c, c', hsplit, hc, hc'⟩ : ∃ c c', (poolAfter (twoCreates [0xD800])).store.commitsOf
      (js "/registry/nodes/" ++ [0xD800]) = [c, c'] ∧ c.kind = .create ∧ c'.kind = .create := by
    obtain ⟨c, tail, hsplit, hc, htail⟩ := List.map_eq_cons_iff.mp hkinds
    obtain ⟨c', rest, rfl, hc', hrest⟩ := List.map_eq_cons_iff.mp htail
    obtain rfl := List.map_eq_nil_iff.mp hrest
    exact ⟨c, c', hsplit, hc, hc'⟩
  obtain ⟨d, hd, -⟩ := h.oneCreate [] c [] c' [] hsplit hc hc'
  cases hd

end Store

end Webernetes.Storage
