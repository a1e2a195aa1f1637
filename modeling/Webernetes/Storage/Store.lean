/-
Webernetes.Storage.Store — the object store between the API and the etcd.

`Store.create`, `update` and `delete` are programs over the etcd: one
request at each await, and the hooks of a subclass in between. The hooks
change no metadata; they are programs over a part of the state of their
own (`ext`), so that a subclass can keep allocations there. What a program
draws from outside (`Math.random`) is an argument, and so is a bound on
the rounds of its loops.

`commits` is a ghost: what the transactions that succeeded have done, in
order. No program reads it.
-/
import Webernetes.Base.Interleave
import Webernetes.Etcd.Cell
import Webernetes.Storage.Object

namespace Webernetes.Storage

open Js Base Etcd

/-! ## Options, hooks and state -/

structure StoreOpts where
  namespaced : Bool
  defaultQualifiedResource : JsString
  singularQualifiedResource : JsString
  apiVersion : Option JsString := none
  kind : Option JsString := none

/-- What is thrown, with its text. -/
inductive StoreError (ε : Type) where
  | error (message : JsString)
  | notFound (message : JsString)
  | conflict (message : JsString)
  | etcd (e : EtcdError)
  /-- `JSON.parse` of something that is not JSON. -/
  | syntaxError
  | hook (e : ε)
  /-- Still in a loop when the bound on its rounds is reached. -/
  | unfinished
  deriving DecidableEq

/-- `finishCreate` and `finishUpdate`, to be called with `success`. -/
abbrev FinishFunc (E ε : Type) := Bool → Prog E ε Unit

/-- The methods a subclass overrides. They may change the body of the
object they are given. -/
structure Hooks (β E ε : Type) where
  validateCreate : Storable β → Prog E ε β
  validateUpdate : Storable β → Storable β → Prog E ε β
  beginCreate : Storable β → Prog E ε (β × FinishFunc E ε)
  beginUpdate : Storable β → Storable β → Prog E ε (β × FinishFunc E ε)
  prepareDelete : Storable β → Prog E ε Unit
  afterDelete : Storable β → Prog E ε Unit

/-- `finishNothing`. -/
def finishNothing {E ε : Type} : FinishFunc E ε := fun _ => pure ()

/-- The methods of `Store` itself, with a `prepareCreate` and a
`prepareUpdate` in `beginCreate` and `beginUpdate`. -/
def Hooks.plain {β E ε : Type} (prepareCreate : Storable β → Prog E ε β)
    (prepareUpdate : Storable β → Storable β → Prog E ε β) : Hooks β E ε where
  validateCreate obj := pure obj.body
  validateUpdate obj _ := pure obj.body
  beginCreate obj := do return (← prepareCreate obj, finishNothing)
  beginUpdate obj existing := do return (← prepareUpdate obj existing, finishNothing)
  prepareDelete _ := pure ()
  afterDelete _ := pure ()

structure Store (β E ε : Type) where
  opts : StoreOpts
  json : JsonCodec (Storable β)
  /-- `JSON.parse` of what is kept under a namespace; `null` is none. -/
  parseNamespace : JsString → Option (Option (Storable Unit))
  hooks : Hooks β E ε

/-- What `readStored` finds. -/
structure Stored (β : Type) where
  obj : Storable β
  modRevision : Nat
  deriving DecidableEq

def Stored.resourceVersion {β : Type} (stored : Stored β) : JsString :=
  revisionText stored.modRevision

inductive CommitKind where
  | create
  /-- With the resourceVersion of the object that was handed in. -/
  | update (wanted : Option JsString)
  | delete
  deriving DecidableEq

/-- A transaction that succeeded: whose it was, what its call had read and
stores, and what was found under the key before and after. `acted` is the
object a removal is for. -/
structure Commit (β : Type) where
  call : Nat
  key : JsString
  kind : CommitKind
  read : Option (Stored β)
  acted : Option (Storable β)
  stored : Option (Storable β)
  before : Option StoredValue
  after : Option StoredValue
  revision : Nat
  deriving DecidableEq

structure StoreState (locale : Etcd.Locale) (β E : Type) where
  etcd : FakeState locale
  ext : E
  commits : List (Commit β) := []

/-- What a call of `create` draws: the random parts of its names, and the
uid. -/
structure Draws where
  names : List JsString := []
  uid : JsString := []
  deriving DecidableEq

namespace Store

variable {locale : Etcd.Locale} {β E ε : Type} (store : Store β E ε)

abbrev Request (locale : Etcd.Locale) (β E ε : Type) (ρ : Type) :=
  Prog (StoreState locale β E) (StoreError ε) ρ

/-! ## Keys and type metadata -/

def key (name : JsString) (ns : Option JsString) : JsString :=
  js "/registry/" ++ store.opts.defaultQualifiedResource
    ++ (if store.opts.namespaced then js "/" ++ ns.getD (js "default") else [])
    ++ js "/" ++ name

def defaultTypeMeta (obj : Storable β) : Storable β :=
  { obj with
    apiVersion := obj.apiVersion <|> store.opts.apiVersion
    kind := obj.kind <|> store.opts.kind }

def validateTypeMeta (obj : Storable β) : Except (StoreError ε) Unit := do
  if let some apiVersion := store.opts.apiVersion then
    if obj.apiVersion ≠ some apiVersion then
      throw (.error (store.opts.singularQualifiedResource ++ js " apiVersion must be " ++ apiVersion))
  if let some kind := store.opts.kind then
    if obj.kind ≠ some kind then
      throw (.error (store.opts.singularQualifiedResource ++ js " kind must be " ++ kind))

/-- `${singular} "${name}"`. -/
def named (name : JsString) : JsString :=
  store.opts.singularQualifiedResource ++ js " \"" ++ name ++ js "\""

def alreadyExists (name : JsString) : StoreError ε :=
  .error (js "Object with name " ++ name ++ js " already exists")

def modified (name : JsString) : StoreError ε :=
  .conflict (store.named name
    ++ js " was modified; please apply your changes to the latest version and try again")

/-! ## Requests -/

/-- A hook runs on its part of the state. -/
def hook {ρ : Type} (p : Prog E ε ρ) : Request locale β E ε ρ :=
  p.zoom StoreState.ext (fun s ext => { s with ext }) .hook

/-- `etcd.get(key).exec()`. -/
def get (key : JsString) : Request locale β E ε RangeResponse :=
  .exchange (fun s => (s.etcd.range [] { key, rangeEnd := [], limit := 1 }).mapError .etcd) id

def readStored (name : JsString) (ns : Option JsString) : Request locale β E ε (Option (Stored β)) := do
  let response ← get (store.key name ns)
  match response.kvs[0]? with
  | none => return none
  | some kv =>
    match store.json.parse kv.value.toString with
    | none => .throw .syntaxError
    | some obj =>
      return some ⟨obj.withResourceVersion (revisionText kv.modRevision), kv.modRevision⟩

def namespaceExists (ns : JsString) : Request locale β E ε Bool := do
  let response ← get (js "/registry/namespaces/" ++ ns)
  match response.kvs[0]? with
  | none => return false
  | some kv =>
    match store.parseNamespace kv.value.toString with
    | none => .throw .syntaxError
    | some value => return value.any fun value => !value.hasDeletionTimestamp

/-- `etcd.if(…).then(…).commit()`, and the entry of a commit. -/
def commit (request : TxnRequest) (entry : FakeState locale → FakeState locale → Nat → Commit β) :
    Request locale β E ε TxnResponse :=
  .exchange (fun s => (s.etcd.txn request).result.mapError .etcd) fun s =>
    let outcome := s.etcd.txn request
    { s with
      etcd := outcome.state
      commits := s.commits ++ match outcome.result with
        | .ok response =>
          if response.succeeded then [entry s.etcd outcome.state response.header.revision] else []
        | .error _ => [] }

/-- `etcd.put(key).value(JSON.stringify(obj))`. -/
def putOptions (key : JsString) (obj : Storable β) : PutOptions where
  key := key
  value := some (Buffer.fromString (store.json.stringify obj))

def putRequest (clause : Compare) (key : JsString) (obj : Storable β) : TxnRequest where
  compare := [clause]
  success := [{ requestPut := some (store.putOptions key obj) }]

def deleteRequest (clause : Compare) (key : JsString) : TxnRequest where
  compare := [clause]
  success := [{ requestDeleteRange := some { key, rangeEnd := [] } }]

/-- `if(key, "Version", "==", 0)`. -/
def versionIsZero (key : JsString) : Compare where
  key := some (Buffer.fromString key)
  target := some .version
  result := some .equal
  version := some 0

/-- `if(key, "Mod", "==", revision)`. -/
def modIs (key : JsString) (revision : Nat) : Compare where
  key := some (Buffer.fromString key)
  target := some .mod
  result := some .equal
  modRevision := some revision

/-! ## create -/

/-- The namespace of an object to be created. -/
def createNamespace (metadata : ObjectMeta) : Request locale β E ε ObjectMeta := do
  if store.opts.namespaced then
    let ns := if truthy metadata.namespace then metadata.namespace.getD [] else js "default"
    if !(← store.namespaceExists ns) then
      .throw (.notFound (js "\"" ++ ns ++ js "\" does not exist"))
    else return { metadata with «namespace» := some ns }
  else if truthy metadata.namespace then
    .throw (.error (js "Resource " ++ store.opts.defaultQualifiedResource
      ++ js " is not namespaced, found namespace " ++ metadata.namespace.getD []
      ++ js " in metadata"))
  else return metadata

/-- The loop over generated names. -/
def generateName (generateNamePrefix : JsString) (ns : Option JsString) :
    List JsString → Request locale β E ε JsString
  | [] => .throw .unfinished
  | drawn :: draws => do
    let name := generateNamePrefix ++ drawn
    if (← store.readStored name ns).isSome then generateName generateNamePrefix ns draws
    else return name

/-- The name of an object to be created. -/
def createName (draws : Draws) (metadata : ObjectMeta) : Request locale β E ε JsString := do
  if !truthy metadata.name && truthy metadata.generateName then
    store.generateName (metadata.generateName.getD []) metadata.namespace draws.names
  else return metadata.name.getD []

/-- `create` from the moment its object has its name. `call` is the number
of the call, for the commits. -/
def createNamed (call : Nat) (name : JsString) (obj : Storable β) :
    Request locale β E ε (Storable β) := do
  let key := store.key name obj.objectMeta.namespace
  if (← store.readStored name obj.objectMeta.namespace).isSome then .throw (alreadyExists name)
  else
    let (body, finishCreate) ← hook (store.hooks.beginCreate obj)
    let obj := { obj with body }
    let (obj, response) ← Prog.onError (do
        let body ← hook (store.hooks.validateCreate obj)
        let obj := { obj with body }
        let response ← commit (store.putRequest (versionIsZero key) key obj)
          fun s s' revision =>
            { call, key, kind := .create, read := none, acted := none, stored := some obj
              before := s.current key, after := s'.current key, revision }
        if !response.succeeded then .throw (alreadyExists name) else return (obj, response))
      (hook (finishCreate false))
    hook (finishCreate true)
    return obj.withResourceVersion (revisionText response.header.revision)

def create (call : Nat) (draws : Draws) (input : Storable β) :
    Request locale β E ε (Storable β) := do
  match input.metadata with
  | none => .throw (.error (js "Object must have metadata"))
  | some metadata =>
    if truthy metadata.resourceVersion then
      .throw (.error (js "resourceVersion should not be set on objects to be created"))
    else
      let obj := store.defaultTypeMeta input
      Prog.ofExcept (store.validateTypeMeta obj)
      let metadata ← store.createNamespace metadata
      let name ← store.createName draws metadata
      if name = [] then .throw (.error (js "Object must have a name"))
      else
        let metadata := { metadata with name := some name, uid := metadata.uid <|> some draws.uid }
        store.createNamed call name { obj with metadata := some metadata }

/-! ## delete -/

/-- `delete`, with a bound on the rounds of its loop. -/
def delete (call : Nat) (acted : Option (Storable β)) (name : JsString) (ns : Option JsString) :
    Nat → Request locale β E ε Bool
  | 0 => .throw .unfinished
  | rounds + 1 => do
    let key := store.key name ns
    match ← store.readStored name ns with
    | none => return false
    | some existing =>
      hook (store.hooks.prepareDelete existing.obj)
      let response ← commit (deleteRequest (modIs key existing.modRevision) key)
        fun s s' revision =>
          { call, key, kind := .delete, read := some existing, acted, stored := none
            before := s.current key, after := s'.current key, revision }
      if !response.succeeded then delete call acted name ns rounds
      else
        hook (store.hooks.afterDelete existing.obj)
        return true

/-! ## update -/

/-- `update` from the moment it has read what it replaces. -/
def updateStored (call : Nat) (rounds : Nat) (name : JsString) (obj : Storable β)
    (existing : Stored β) (skipValidateUpdate : Bool) : Request locale β E ε (Storable β) := do
  let key := store.key name obj.objectMeta.namespace
  let (body, finishUpdate) ← hook (store.hooks.beginUpdate obj existing.obj)
  let obj := { obj with body }
  let (obj, response) ← Prog.onError (do
      let body ← (if skipValidateUpdate then pure obj.body
        else hook (store.hooks.validateUpdate obj existing.obj))
      let obj := { obj with body }
      let response ← commit (store.putRequest (modIs key existing.modRevision) key obj)
        fun s s' revision =>
          { call, key, kind := .update obj.objectMeta.resourceVersion, read := some existing
            acted := none, stored := some obj
            before := s.current key, after := s'.current key, revision }
      if !response.succeeded then .throw (store.modified name) else return (obj, response))
    (hook (finishUpdate false))
  hook (finishUpdate true)
  let result := obj.withResourceVersion (revisionText response.header.revision)
  if obj.finalizedPendingDeletion then
    let _ ← store.delete call (some result) (obj.objectMeta.name.getD []) obj.objectMeta.namespace
      rounds
    return result
  else return result

def update (call : Nat) (rounds : Nat) (name : JsString) (input : Storable β)
    (skipValidateUpdate : Bool) : Request locale β E ε (Storable β) := do
  match input.metadata with
  | none => .throw (.error (js "Object must have metadata"))
  | some metadata =>
    let obj := store.defaultTypeMeta input
    Prog.ofExcept (store.validateTypeMeta obj)
    if !truthy metadata.name then .throw (.error (js "Object must have a name"))
    else
      let metadata :=
        if store.opts.namespaced && !truthy metadata.namespace then
          { metadata with «namespace» := some (js "default") }
        else metadata
      let obj := { obj with metadata := some metadata }
      match ← store.readStored name metadata.namespace with
      | none => .throw (.notFound (store.named name ++ js " not found"))
      | some existing =>
        if truthy metadata.resourceVersion
            && metadata.resourceVersion != some existing.resourceVersion then
          .throw (store.modified name)
        else store.updateStored call rounds name obj existing skipValidateUpdate

end Store

end Webernetes.Storage
