import QuorumHotstuff.State.AccountExtraData
import QuorumHotstuff.State.AccessList
import QuorumHotstuff.Lib.Search
import QuorumHotstuff.Lib.Journal

/-!
# The state database and its journal

`core/state/statedb.go`, `state_object.go` and `journal.go`: the accounts a block's transactions
change, held as live state objects over the committed state, and the journal that records, for
each change, what it overwrote.  `Snapshot` marks a point of the journal; `RevertToSnapshot`
undoes the entries after it from the last back and forgets the later snapshots.

The committed state is what the tries hold (`Database`): the account at an address, its entry in
Quorum's extra-data trie, and code by hash, a failed read counting as absent.  A storage trie is
the map it holds.

A Go method that changes a state object through its pointer is here a function that returns the
object changed, and the state puts it back under the address the pointer was read at
(`putObject`).  Reads are pure: `getDeletedStateObject` returns a committed account as a new object
without inserting it into the live set, and `Code` and `AccountExtraData` do not cache what they
load; an object read twice is the same value either way.  A panic (a nil object, an index out of
range, the refund counter below zero, an unknown revision) is `none`.

Not modelled: the snapshot layer (`s.snap` is nil), the journal's count of dirty addresses, the
caches and flags that only commits read (`stateObjectsDirty`, `originStorage`, `pendingStorage`,
`dirtyCode`, `dirtyAccountExtraData`), and the debugging `fakeStorage`.
-/

namespace QuorumHotstuff.State

open QuorumHotstuff.Hotstuff (Address Hash)
open QuorumHotstuff.Lib (undoAll search)

/-- `emptyCodeHash`: the Keccak-256 hash of no code. -/
def emptyCodeHash : Hash :=
  0xc5d2460186f7233c927e7db2dcc703c0e500b653ca82273b7bfad8045d85a470

/-- `Account`, its storage trie read as the map it holds. -/
structure Account where
  nonce : UInt64
  balance : Int
  storage : Hash → Hash
  codeHash : Hash

/-- `Account{}` as `newObject` completes it: no balance, no storage, the empty code. -/
def zeroAccount : Account := ⟨0, 0, fun _ => 0, emptyCodeHash⟩

/-- What a `StateDB` reads from its `Database` and tries. -/
structure Database where
  account : Address → Option Account
  accountExtraData : Address → Option AccountExtraData
  contractCode : Hash → List Nat

/-- `types.Log`, with the fields `AddLog` reads or sets. -/
structure Log where
  address : Address
  topics : List Hash
  data : List Nat
  txHash : Hash
  blockHash : Hash
  txIndex : Nat
  index : UInt64
deriving DecidableEq, Repr

/-- `AccountExtraData.copy`: the metadata, and the parties copied into a new slice, which is never
    nil. -/
def AccountExtraData.copy (qmd : AccountExtraData) : AccountExtraData :=
  ⟨qmd.privacyMetadata, some (qmd.managedParties.getD [])⟩

/-- `stateObject`. -/
structure StateObject where
  address : Address
  data : Account
  /-- The code, once set or loaded; the empty list stands for Go's nil, as `Code` reads both
      alike. -/
  code : List Nat
  accountExtraData : Option AccountExtraData
  dirtyStorage : Hash → Option Hash
  suicided : Bool
  deleted : Bool

/-- `newObject`. -/
def newObject (address : Address) (data : Account) : StateObject :=
  ⟨address, data, [], none, fun _ => none, false, false⟩

/-- The errors of the extra-data accessors, each with the address its text names. -/
inductive ExtraDataError where
  /-- `"%s: no account extra data found"`: no entry in the extra-data trie. -/
  | noAccountExtraData (address : Address)
  /-- `"no privacy metadata data for contract %s"`. -/
  | noPrivacyMetadata (address : Address)
  /-- `"The provided contract does not have privacy metadata: %x"`. -/
  | noCommittedPrivacyMetadata (address : Address)
deriving DecidableEq, Repr

/-- `journalEntry`: what each change overwrote. -/
inductive JournalEntry where
  | createObjectChange (account : Address)
  | resetObjectChange (prev : StateObject)
  | suicideChange (account : Address) (prev : Bool) (prevbalance : Int)
  | balanceChange (account : Address) (prev : Int)
  | nonceChange (account : Address) (prev : UInt64)
  | storageChange (account : Address) (key prevalue : Hash)
  | codeChange (account : Address) (prevcode : List Nat) (prevhash : Hash)
  | accountExtraDataChange (account : Address) (prev : Option AccountExtraData)
  | refundChange (prev : UInt64)
  | addLogChange (txhash : Hash)
  | addPreimageChange (hash : Hash)
  | touchChange (account : Address)
  | accessListAddAccountChange (address : Address)
  | accessListAddSlotChange (address : Address) (slot : Hash)

/-! ## State objects -/

namespace StateObject

/-- `empty`: no nonce, no balance and no code (EIP-161). -/
def empty (s : StateObject) : Bool :=
  s.data.nonce == 0 && s.data.balance == 0 && s.data.codeHash == emptyCodeHash

/-- `Code`: the code set or loaded, else none for the empty code hash, else the stored code. -/
def getCode (s : StateObject) (db : Database) : List Nat :=
  if s.code ≠ [] then s.code
  else if s.data.codeHash = emptyCodeHash then []
  else db.contractCode s.data.codeHash

/-- `CodeSize`. -/
def codeSize (s : StateObject) (db : Database) : Nat :=
  if s.code ≠ [] then s.code.length
  else if s.data.codeHash = emptyCodeHash then 0
  else (db.contractCode s.data.codeHash).length

/-- `GetCommittedState`. -/
def getCommittedState (s : StateObject) (key : Hash) : Hash := s.data.storage key

/-- `GetState`: the value set in this transaction, else the committed one. -/
def getState (s : StateObject) (key : Hash) : Hash :=
  (s.dirtyStorage key).getD (s.getCommittedState key)

/-- `AccountExtraData`: the extra data set or loaded, else the committed one; `none` is
    `ErrNoAccountExtraData`. -/
def getAccountExtraData (s : StateObject) (db : Database) : Option AccountExtraData :=
  match s.accountExtraData with
  | some extraData => some extraData
  | none => db.accountExtraData s.address

/-- `PrivacyMetadata`. -/
def privacyMetadata (s : StateObject) (db : Database) : Except ExtraDataError PrivacyMetadata :=
  match s.getAccountExtraData db with
  | none => .error (.noAccountExtraData s.address)
  | some extraData =>
    match extraData.privacyMetadata with
    | none => .error (.noPrivacyMetadata s.address)
    | some pm => .ok pm

/-- `GetCommittedPrivacyMetadata`: the committed extra data only. -/
def getCommittedPrivacyMetadata (s : StateObject) (db : Database) :
    Except ExtraDataError PrivacyMetadata :=
  match db.accountExtraData s.address with
  | none => .error (.noAccountExtraData s.address)
  | some extraData =>
    match extraData.privacyMetadata with
    | none => .error (.noCommittedPrivacyMetadata s.address)
    | some pm => .ok pm

/-- `ManagedParties`: none found is an empty, non-nil slice. -/
def managedParties (s : StateObject) (db : Database) : Option (List (List Nat)) :=
  match s.getAccountExtraData db with
  | none => some []
  | some extraData => extraData.managedParties

/-! The journaled setters: the entries each appends to the journal, and the object after it. -/

/-- `SetBalance`. -/
def setBalance (s : StateObject) (amount : Int) : List JournalEntry × StateObject :=
  ([.balanceChange s.address s.data.balance], { s with data.balance := amount })

/-- `touch`: an entry for the account, which stays as it is. -/
def touch (s : StateObject) : List JournalEntry × StateObject :=
  ([.touchChange s.address], s)

/-- `AddBalance`: a zero amount only touches an empty account (EIP-161). -/
def addBalance (s : StateObject) (amount : Int) : List JournalEntry × StateObject :=
  if amount = 0 then (if s.empty then s.touch else ([], s))
  else s.setBalance (s.data.balance + amount)

/-- `SubBalance`. -/
def subBalance (s : StateObject) (amount : Int) : List JournalEntry × StateObject :=
  if amount = 0 then ([], s) else s.setBalance (s.data.balance - amount)

/-- `SetNonce`. -/
def setNonce (s : StateObject) (nonce : UInt64) : List JournalEntry × StateObject :=
  ([.nonceChange s.address s.data.nonce], { s with data.nonce := nonce })

/-- `SetCode`: journals the code `Code` returns and the code hash. -/
def setCode (s : StateObject) (db : Database) (codeHash : Hash) (code : List Nat) :
    List JournalEntry × StateObject :=
  ([.codeChange s.address (s.getCode db) s.data.codeHash],
    { s with code := code, data.codeHash := codeHash })

/-- `SetState`: nothing for a value already there. -/
def setState (s : StateObject) (key value : Hash) : List JournalEntry × StateObject :=
  if s.getState key = value then ([], s)
  else ([.storageChange s.address key (s.getState key)],
    { s with dirtyStorage := Function.update s.dirtyStorage key (some value) })

/-- `journalAccountExtraData`: journals a copy of the current extra data, and returns it, or a new
    one where there is none. -/
def journalAccountExtraData (s : StateObject) (db : Database) :
    List JournalEntry × AccountExtraData :=
  ([.accountExtraDataChange s.address ((s.getAccountExtraData db).map AccountExtraData.copy)],
    (s.getAccountExtraData db).getD ⟨none, none⟩)

/-- `SetStatePrivacyMetadata`. -/
def setStatePrivacyMetadata (s : StateObject) (db : Database) (pm : Option PrivacyMetadata) :
    List JournalEntry × StateObject :=
  let (entries, newExtraData) := s.journalAccountExtraData db
  (entries, { s with accountExtraData := some { newExtraData with privacyMetadata := pm } })

/-- `SetManagedParties`. -/
def setManagedParties (s : StateObject) (db : Database) (managedParties : List (List Nat)) :
    List JournalEntry × StateObject :=
  let (entries, newExtraData) := s.journalAccountExtraData db
  (entries,
    { s with accountExtraData := some { newExtraData with managedParties := some managedParties } })

end StateObject

/-- `revision`. -/
structure Revision where
  id : Int
  journalIndex : Nat
deriving DecidableEq, Repr

/-- `StateDB`. -/
structure StateDB where
  db : Database
  stateObjects : Address → Option StateObject
  refund : UInt64
  thash : Hash
  bhash : Hash
  txIndex : Nat
  logs : Hash → List Log
  logSize : UInt64
  preimages : Hash → Option (List Nat)
  accessList : AccessList
  journal : List JournalEntry
  validRevisions : List Revision
  nextRevisionId : Int

namespace StateDB

/-- `New`: no live objects, an empty journal and access list. -/
def new (db : Database) : StateDB where
  db := db
  stateObjects := fun _ => none
  refund := 0
  thash := 0
  bhash := 0
  txIndex := 0
  logs := fun _ => []
  logSize := 0
  preimages := fun _ => none
  accessList := newAccessList
  journal := []
  validRevisions := []
  nextRevisionId := 0

/-- `journal.append`. -/
def append (s : StateDB) (entry : JournalEntry) : StateDB :=
  { s with journal := s.journal ++ [entry] }

/-- `getDeletedStateObject`: the live object, else the committed account as a new object. -/
def getDeletedStateObject (s : StateDB) (addr : Address) : Option StateObject :=
  match s.stateObjects addr with
  | some obj => some obj
  | none => (s.db.account addr).map (newObject addr)

/-- `getStateObject`: as `getDeletedStateObject`, but nothing for a deleted object. -/
def getStateObject (s : StateDB) (addr : Address) : Option StateObject :=
  match s.getDeletedStateObject addr with
  | some obj => if obj.deleted then none else some obj
  | none => none

/-- `setStateObject`: the object goes live under its own address. -/
def setStateObject (s : StateDB) (object : StateObject) : StateDB :=
  { s with stateObjects := Function.update s.stateObjects object.address (some object) }

/-- The object behind the pointer read at `addr`, after a method changed it. -/
def putObject (s : StateDB) (addr : Address) (obj : StateObject) : StateDB :=
  { s with stateObjects := Function.update s.stateObjects addr (some obj) }

/-- A change through the pointer `getStateObject` returns, which panics on nil. -/
def modifyObject (s : StateDB) (addr : Address) (f : StateObject → StateObject) :
    Option StateDB :=
  (s.getStateObject addr).map fun obj => s.putObject addr (f obj)

/-- `createObject`: a new object in place of any there, journaled as a creation or as a reset to
    the object it replaces; the replaced object is returned unless it was deleted. -/
def createObject (s : StateDB) (addr : Address) : StateDB × StateObject × Option StateObject :=
  let prev := s.getDeletedStateObject addr
  let newobj := newObject addr zeroAccount
  let entry := match prev with
    | none => JournalEntry.createObjectChange addr
    | some p => .resetObjectChange p
  ((s.append entry).setStateObject newobj, newobj, prev.filter fun p => !p.deleted)

/-- `GetOrNewStateObject`. -/
def getOrNewStateObject (s : StateDB) (addr : Address) : StateDB × StateObject :=
  match s.getStateObject addr with
  | some obj => (s, obj)
  | none => ((s.createObject addr).1, (s.createObject addr).2.1)

/-- A state-object method on what `GetOrNewStateObject` returns for `addr`: what it journals goes
    on the journal, and the object it leaves is the one behind the pointer. -/
def withObject (s : StateDB) (addr : Address)
    (m : StateObject → List JournalEntry × StateObject) : StateDB :=
  let r := s.getOrNewStateObject addr
  ({ r.1 with journal := r.1.journal ++ (m r.2).1 }).putObject addr (m r.2).2

/-- `CreateAccount`: a new account that keeps the balance of the one it replaces. -/
def createAccount (s : StateDB) (addr : Address) : StateDB :=
  let r := s.createObject addr
  match r.2.2 with
  | some prev => r.1.putObject addr { r.2.1 with data.balance := prev.data.balance }
  | none => r.1

/-- `AddBalance`. -/
def addBalance (s : StateDB) (addr : Address) (amount : Int) : StateDB :=
  s.withObject addr (·.addBalance amount)

/-- `SubBalance`. -/
def subBalance (s : StateDB) (addr : Address) (amount : Int) : StateDB :=
  s.withObject addr (·.subBalance amount)

/-- `SetBalance`. -/
def setBalance (s : StateDB) (addr : Address) (amount : Int) : StateDB :=
  s.withObject addr (·.setBalance amount)

/-- `SetNonce`. -/
def setNonce (s : StateDB) (addr : Address) (nonce : UInt64) : StateDB :=
  s.withObject addr (·.setNonce nonce)

/-- `SetPrivacyMetadata`. -/
def setPrivacyMetadata (s : StateDB) (addr : Address) (metadata : Option PrivacyMetadata) :
    StateDB :=
  s.withObject addr (·.setStatePrivacyMetadata s.db metadata)

/-- `SetManagedParties`: the account is made even for no parties, which are not set. -/
def setManagedParties (s : StateDB) (addr : Address) (managedParties : List (List Nat)) :
    StateDB :=
  s.withObject addr fun obj =>
    if 0 < managedParties.length then obj.setManagedParties s.db managedParties else ([], obj)

/-- `SetCode`, the code hash by `keccak`. -/
def setCode (keccak : List Nat → Hash) (s : StateDB) (addr : Address) (code : List Nat) :
    StateDB :=
  s.withObject addr (·.setCode s.db (keccak code) code)

/-- `SetState`. -/
def setState (s : StateDB) (addr : Address) (key value : Hash) : StateDB :=
  s.withObject addr (·.setState key value)

/-- `Suicide`: marks a live account and clears its balance; whether there was one. -/
def suicide (s : StateDB) (addr : Address) : StateDB × Bool :=
  match s.getStateObject addr with
  | none => (s, false)
  | some obj =>
    ((s.append (.suicideChange addr obj.suicided obj.data.balance)).putObject addr
      { obj with suicided := true, data.balance := 0 }, true)

/-- `AddRefund`. -/
def addRefund (s : StateDB) (gas : UInt64) : StateDB :=
  { s.append (.refundChange s.refund) with refund := s.refund + gas }

/-- `SubRefund`, which panics below zero. -/
def subRefund (s : StateDB) (gas : UInt64) : Option StateDB :=
  if gas > s.refund then none
  else some { s.append (.refundChange s.refund) with refund := s.refund - gas }

/-- `AddLog`: the log stamped with the transaction, the block and its index. -/
def addLog (s : StateDB) (log : Log) : StateDB :=
  let log := { log with txHash := s.thash, blockHash := s.bhash, txIndex := s.txIndex,
                        index := s.logSize }
  { s.append (.addLogChange s.thash) with
    logs := Function.update s.logs s.thash (s.logs s.thash ++ [log])
    logSize := s.logSize + 1 }

/-- `AddPreimage`: a hash seen before keeps its first preimage. -/
def addPreimage (s : StateDB) (hash : Hash) (preimage : List Nat) : StateDB :=
  match s.preimages hash with
  | some _ => s
  | none =>
    { s.append (.addPreimageChange hash) with
      preimages := Function.update s.preimages hash (some preimage) }

/-- `AddAddressToAccessList`. -/
def addAddressToAccessList (s : StateDB) (addr : Address) : StateDB :=
  if (s.accessList.addAddress addr).2 then
    { s.append (.accessListAddAccountChange addr) with
      accessList := (s.accessList.addAddress addr).1 }
  else s

/-- `AddSlotToAccessList`: an entry for the address if it was added, then one for the slot. -/
def addSlotToAccessList (s : StateDB) (addr : Address) (slot : Hash) : Option StateDB :=
  (s.accessList.addSlot addr slot).map fun r =>
    let s := { s with accessList := r.1 }
    let s := if r.2.1 then s.append (.accessListAddAccountChange addr) else s
    if r.2.2 then s.append (.accessListAddSlotChange addr slot) else s

/-- `Prepare`: the transaction logs are stamped with, and a new access list. -/
def prepare (s : StateDB) (thash bhash : Hash) (ti : Nat) : StateDB :=
  { s with thash := thash, bhash := bhash, txIndex := ti, accessList := newAccessList }

/-! ## Reverting -/

end StateDB

/-- `journalEntry.revert`. -/
def JournalEntry.revert : JournalEntry → StateDB → Option StateDB
  | .createObjectChange account, s =>
    some { s with stateObjects := Function.update s.stateObjects account none }
  | .resetObjectChange prev, s => some (s.setStateObject prev)
  | .suicideChange account prev prevbalance, s =>
    -- the one revert that checks for nil
    match s.getStateObject account with
    | some obj => some (s.putObject account { obj with suicided := prev, data.balance := prevbalance })
    | none => some s
  | .balanceChange account prev, s => s.modifyObject account fun obj =>
    { obj with data.balance := prev }
  | .nonceChange account prev, s => s.modifyObject account fun obj =>
    { obj with data.nonce := prev }
  | .storageChange account key prevalue, s => s.modifyObject account fun obj =>
    { obj with dirtyStorage := Function.update obj.dirtyStorage key (some prevalue) }
  | .codeChange account prevcode prevhash, s => s.modifyObject account fun obj =>
    { obj with code := prevcode, data.codeHash := prevhash }
  | .accountExtraDataChange account prev, s => s.modifyObject account fun obj =>
    { obj with accountExtraData := prev }
  | .refundChange prev, s => some { s with refund := prev }
  | .addLogChange txhash, s =>
    match (s.logs txhash).length with
    -- `logs[:len(logs)-1]` panics on no logs
    | 0 => none
    | 1 => some { s with logs := Function.update s.logs txhash [], logSize := s.logSize - 1 }
    | n + 1 => some { s with logs := Function.update s.logs txhash ((s.logs txhash).take n),
                             logSize := s.logSize - 1 }
  | .addPreimageChange hash, s =>
    some { s with preimages := Function.update s.preimages hash none }
  | .touchChange _, s => some s
  | .accessListAddAccountChange address, s =>
    some { s with accessList := s.accessList.deleteAddress address }
  | .accessListAddSlotChange address slot, s =>
    (s.accessList.deleteSlot address slot).map fun al => { s with accessList := al }

namespace StateDB

/-- `journal.revert`: the entries from `snapshot` on undone from the last back, then dropped. -/
def revertJournal (s : StateDB) (snapshot : Nat) : Option StateDB :=
  (undoAll JournalEntry.revert (s.journal.drop snapshot) s).map fun s' =>
    { s' with journal := s.journal.take snapshot }

/-- `Snapshot`: a new revision at the journal's end, and its id. -/
def snapshot (s : StateDB) : StateDB × Int :=
  ({ s with nextRevisionId := s.nextRevisionId + 1,
            validRevisions := s.validRevisions ++ [⟨s.nextRevisionId, s.journal.length⟩] },
    s.nextRevisionId)

/-- The index `sort.Search` finds for `revid`: the first revision with an id at least it. -/
def revisionIndex (s : StateDB) (revid : Int) : Nat :=
  search s.validRevisions.length fun i =>
    decide (revid ≤ (s.validRevisions.getD i ⟨0, 0⟩).id)

/-- `RevertToSnapshot`, which panics on an id that is not a valid revision's. -/
def revertToSnapshot (s : StateDB) (revid : Int) : Option StateDB :=
  match s.validRevisions[s.revisionIndex revid]? with
  | none => none
  | some rev =>
    if rev.id ≠ revid then none
    else (s.revertJournal rev.journalIndex).map fun s' =>
      { s' with validRevisions := s.validRevisions.take (s.revisionIndex revid) }

/-! ## Accessors -/

/-- What the accessors of an account do: `f` of the object `getStateObject` returns, else a
    default. -/
def readObject {α : Type} (s : StateDB) (addr : Address) (default : α) (f : StateObject → α) : α :=
  match s.getStateObject addr with
  | some stateObject => f stateObject
  | none => default

/-- `Exist`. -/
def exist (s : StateDB) (addr : Address) : Bool := (s.getStateObject addr).isSome

/-- `Empty`. -/
def empty (s : StateDB) (addr : Address) : Bool := s.readObject addr true StateObject.empty

/-- `GetBalance`. -/
def getBalance (s : StateDB) (addr : Address) : Int := s.readObject addr 0 (·.data.balance)

/-- `GetNonce`. -/
def getNonce (s : StateDB) (addr : Address) : UInt64 := s.readObject addr 0 (·.data.nonce)

/-- `GetCode`. -/
def getCode (s : StateDB) (addr : Address) : List Nat := s.readObject addr [] (·.getCode s.db)

/-- `GetCodeSize`. -/
def getCodeSize (s : StateDB) (addr : Address) : Nat := s.readObject addr 0 (·.codeSize s.db)

/-- `GetCodeHash`. -/
def getCodeHash (s : StateDB) (addr : Address) : Hash := s.readObject addr 0 (·.data.codeHash)

/-- `GetState`. -/
def getState (s : StateDB) (addr : Address) (hash : Hash) : Hash :=
  s.readObject addr 0 (·.getState hash)

/-- `GetCommittedState`. -/
def getCommittedState (s : StateDB) (addr : Address) (hash : Hash) : Hash :=
  s.readObject addr 0 (·.getCommittedState hash)

/-- `HasSuicided`. -/
def hasSuicided (s : StateDB) (addr : Address) : Bool := s.readObject addr false (·.suicided)

/-- `GetPrivacyMetadata`: nothing, and no error, for no account. -/
def getPrivacyMetadata (s : StateDB) (addr : Address) :
    Except ExtraDataError (Option PrivacyMetadata) :=
  s.readObject addr (.ok none) fun stateObject => (stateObject.privacyMetadata s.db).map some

/-- `GetCommittedStatePrivacyMetadata`. -/
def getCommittedStatePrivacyMetadata (s : StateDB) (addr : Address) :
    Except ExtraDataError (Option PrivacyMetadata) :=
  s.readObject addr (.ok none) fun stateObject =>
    (stateObject.getCommittedPrivacyMetadata s.db).map some

/-- `GetManagedParties`: the nil slice for no account. -/
def getManagedParties (s : StateDB) (addr : Address) : Option (List (List Nat)) :=
  s.readObject addr none (·.managedParties s.db)

/-- `GetRefund`. -/
def getRefund (s : StateDB) : UInt64 := s.refund

/-- `GetLogs`. -/
def getLogs (s : StateDB) (hash : Hash) : List Log := s.logs hash

/-- `AddressInAccessList`. -/
def addressInAccessList (s : StateDB) (addr : Address) : Bool :=
  s.accessList.containsAddress addr

/-- `SlotInAccessList`. -/
def slotInAccessList (s : StateDB) (addr : Address) (slot : Hash) : Option (Bool × Bool) :=
  s.accessList.contains addr slot

end StateDB

/-! ## The interface as a state machine

The journaled mutations of the `StateDB` interface the EVM calls (`vm.StateDB`), and runs of them
interleaved with `Snapshot` and `RevertToSnapshot`. -/

/-- A journaled mutation of the interface. -/
inductive Call where
  | createAccount (addr : Address)
  | addBalance (addr : Address) (amount : Int)
  | subBalance (addr : Address) (amount : Int)
  | setBalance (addr : Address) (amount : Int)
  | setNonce (addr : Address) (nonce : UInt64)
  | setPrivacyMetadata (addr : Address) (metadata : Option PrivacyMetadata)
  | setManagedParties (addr : Address) (managedParties : List (List Nat))
  | setCode (addr : Address) (code : List Nat)
  | setState (addr : Address) (key value : Hash)
  | suicide (addr : Address)
  | addRefund (gas : UInt64)
  | subRefund (gas : UInt64)
  | addLog (log : Log)
  | addPreimage (hash : Hash) (preimage : List Nat)
  | addAddressToAccessList (addr : Address)
  | addSlotToAccessList (addr : Address) (slot : Hash)

/-- The state a mutation leaves, `none` where it panics. -/
def Call.apply (keccak : List Nat → Hash) : Call → StateDB → Option StateDB
  | .createAccount addr, s => some (s.createAccount addr)
  | .addBalance addr amount, s => some (s.addBalance addr amount)
  | .subBalance addr amount, s => some (s.subBalance addr amount)
  | .setBalance addr amount, s => some (s.setBalance addr amount)
  | .setNonce addr nonce, s => some (s.setNonce addr nonce)
  | .setPrivacyMetadata addr metadata, s => some (s.setPrivacyMetadata addr metadata)
  | .setManagedParties addr managedParties, s => some (s.setManagedParties addr managedParties)
  | .setCode addr code, s => some (s.setCode keccak addr code)
  | .setState addr key value, s => some (s.setState addr key value)
  | .suicide addr, s => some (s.suicide addr).1
  | .addRefund gas, s => some (s.addRefund gas)
  | .subRefund gas, s => s.subRefund gas
  | .addLog log, s => some (s.addLog log)
  | .addPreimage hash preimage, s => some (s.addPreimage hash preimage)
  | .addAddressToAccessList addr, s => some (s.addAddressToAccessList addr)
  | .addSlotToAccessList addr slot, s => s.addSlotToAccessList addr slot

/-- A step of a run: a mutation, `Snapshot` (its id dropped), or `RevertToSnapshot`. -/
inductive Action where
  | call (c : Call)
  | snapshot
  | revertToSnapshot (revid : Int)

/-- The state an action leaves, `none` where it panics. -/
def Action.apply (keccak : List Nat → Hash) : Action → StateDB → Option StateDB
  | .call c, s => c.apply keccak s
  | .snapshot, s => some s.snapshot.1
  | .revertToSnapshot revid, s => s.revertToSnapshot revid

/-- A run of actions, stopped by the first panic. -/
def run (keccak : List Nat → Hash) : List Action → StateDB → Option StateDB
  | [], s => some s
  | a :: acts, s => (a.apply keccak s).bind (run keccak acts)

end QuorumHotstuff.State
