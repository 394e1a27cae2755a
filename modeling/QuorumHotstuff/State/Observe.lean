import QuorumHotstuff.State.StateDB

/-!
# What the accessors see of a state

The public accessors of a `StateDB` read each account through `getStateObject`, and besides the
accounts the refund counter, the logs, the preimages, the access list and the committed state.
`observe` collects exactly that, an account as the `ObjectView` its accessors read: its code as
`Code` returns it, its storage as `GetState` and `GetCommittedState` return it, and its extra data
with a nil slice of managed parties read as an empty one.  Two states that observe the same
(`Same`) answer every accessor alike (`Same.sameAccessors`), the managed parties up to their nil
and empty forms.

Each journal entry's revert respects `Same` (`revert_same`): it reads and writes only what
`observe` sees.  So the earlier entries of a run undo the same from the state a later revert left
as from the state before the later change, though the two may differ in what no accessor reads:
the journal, committed accounts made live, code loaded into the cache.
-/

namespace QuorumHotstuff.State

open QuorumHotstuff.Hotstuff (Address Hash)
open QuorumHotstuff.Lib

/-- What the accessors read of a state object. -/
structure ObjectView where
  address : Address
  nonce : UInt64
  balance : Int
  codeHash : Hash
  code : List Nat
  state : Hash → Hash
  committedState : Hash → Hash
  suicided : Bool
  extraData : Option (Option PrivacyMetadata × List (List Nat))

/-- The extra data as `PrivacyMetadata` and `ManagedParties` read it, a nil slice of parties as
    an empty one. -/
def AccountExtraData.view (qmd : AccountExtraData) : Option PrivacyMetadata × List (List Nat) :=
  (qmd.privacyMetadata, qmd.managedParties.getD [])

/-- A copy reads as the original. -/
@[simp] theorem AccountExtraData.view_copy (qmd : AccountExtraData) : qmd.copy.view = qmd.view := by
  simp [AccountExtraData.view, AccountExtraData.copy]

namespace StateObject

/-- What the accessors read of a state object over the committed state `db`. -/
def view (s : StateObject) (db : Database) : ObjectView where
  address := s.address
  nonce := s.data.nonce
  balance := s.data.balance
  codeHash := s.data.codeHash
  code := s.getCode db
  state := s.getState
  committedState := s.getCommittedState
  suicided := s.suicided
  extraData := (s.getAccountExtraData db).map AccountExtraData.view

/-- `CodeSize` is the length of `Code`. -/
theorem codeSize_eq (s : StateObject) (db : Database) : s.codeSize db = (s.getCode db).length := by
  unfold codeSize getCode
  split_ifs <;> rfl

/-! How the changes the reverts make show in the view. -/

theorem view_setBalance (s : StateObject) (db : Database) (balance : Int) :
    ({ s with data.balance := balance }).view db = { s.view db with balance := balance } := rfl

theorem view_setNonce (s : StateObject) (db : Database) (nonce : UInt64) :
    ({ s with data.nonce := nonce }).view db = { s.view db with nonce := nonce } := rfl

theorem view_setSuicided (s : StateObject) (db : Database) (suicided : Bool) (balance : Int) :
    ({ s with suicided := suicided, data.balance := balance }).view db =
      { s.view db with suicided := suicided, balance := balance } := rfl

theorem view_setDirty (s : StateObject) (db : Database) (key value : Hash) :
    ({ s with dirtyStorage := Function.update s.dirtyStorage key (some value) }).view db =
      { s.view db with state := Function.update (s.view db).state key value } := by
  simp only [view, ObjectView.mk.injEq, true_and]
  refine ⟨rfl, ?_, rfl, rfl⟩
  funext k
  by_cases hk : k = key
  · subst hk
    simp [getState]
  · simp [getState, getCommittedState, hk]

theorem view_setCode (s : StateObject) (db : Database) (code : List Nat) (codeHash : Hash) :
    ({ s with code := code, data.codeHash := codeHash }).view db =
      { s.view db with codeHash := codeHash,
                       code := if code ≠ [] then code
                               else if codeHash = emptyCodeHash then []
                               else db.contractCode codeHash } := rfl

theorem view_setAccountExtraData (s : StateObject) (db : Database)
    (extraData : Option AccountExtraData) :
    ({ s with accountExtraData := extraData }).view db =
      { s.view db with extraData := (match extraData with
                                     | some e => some e
                                     | none => db.accountExtraData (s.view db).address).map
                                       AccountExtraData.view } := rfl

/-- `PrivacyMetadata` reads the extra data and the address only. -/
theorem privacyMetadata_eq_view (o : StateObject) (db : Database) :
    o.privacyMetadata db =
      match (o.view db).extraData with
      | none => .error (.noAccountExtraData (o.view db).address)
      | some (pm, _) =>
        match pm with
        | none => .error (.noPrivacyMetadata (o.view db).address)
        | some pm => .ok pm := by
  unfold privacyMetadata view
  cases o.getAccountExtraData db <;> rfl

/-- `ManagedParties`, a nil slice read as empty, reads the extra data only. -/
theorem managedParties_getD (o : StateObject) (db : Database) :
    (o.managedParties db).getD [] = ((o.view db).extraData.map Prod.snd).getD [] := by
  unfold managedParties view
  cases o.getAccountExtraData db <;> rfl

end StateObject

/-- What the accessors read of a state. -/
structure Observation where
  objects : Address → Option ObjectView
  refund : UInt64
  thash : Hash
  bhash : Hash
  txIndex : Nat
  logs : Hash → List Log
  logSize : UInt64
  preimages : Hash → Option (List Nat)
  accessList : AccessList
  db : Database

namespace StateDB

/-- What the accessors read of `s`. -/
def observe (s : StateDB) : Observation where
  objects a := (s.getStateObject a).map (·.view s.db)
  refund := s.refund
  thash := s.thash
  bhash := s.bhash
  txIndex := s.txIndex
  logs := s.logs
  logSize := s.logSize
  preimages := s.preimages
  accessList := s.accessList
  db := s.db

/-- Two states the accessors cannot tell apart. -/
def Same (s t : StateDB) : Prop := s.observe = t.observe

theorem same_equivalence : Equivalence Same := ⟨fun _ => rfl, Eq.symm, Eq.trans⟩

theorem Same.db {s t : StateDB} (h : Same s t) : s.db = t.db := congrArg Observation.db h

theorem Same.accessList {s t : StateDB} (h : Same s t) : s.accessList = t.accessList :=
  congrArg Observation.accessList h

theorem Same.objects {s t : StateDB} (h : Same s t) (a : Address) :
    (s.getStateObject a).map (·.view s.db) = (t.getStateObject a).map (·.view t.db) :=
  congrFun (congrArg Observation.objects h) a

/-! ## Reading objects back -/

@[simp] theorem putObject_db (s : StateDB) (addr : Address) (obj : StateObject) :
    (s.putObject addr obj).db = s.db := rfl

theorem deleted_of_getStateObject {s : StateDB} {addr : Address} {obj : StateObject}
    (h : s.getStateObject addr = some obj) : obj.deleted = false := by
  unfold getStateObject at h
  split at h
  · split_ifs at h with hdel
    cases h
    simpa using hdel
  · cases h

theorem getStateObject_putObject (s : StateDB) (addr : Address) (obj : StateObject)
    (a : Address) :
    (s.putObject addr obj).getStateObject a =
      if a = addr then (if obj.deleted then none else some obj) else s.getStateObject a := by
  by_cases h : a = addr
  · subst h
    simp [getStateObject, getDeletedStateObject, putObject]
  · simp [getStateObject, getDeletedStateObject, putObject, h]

/-- With nothing live at `addr`, `getStateObject` loads the committed account. -/
theorem getStateObject_of_not_live {s : StateDB} {addr : Address}
    (h : s.stateObjects addr = none) :
    s.getStateObject addr = (s.db.account addr).map (newObject addr) := by
  simp only [getStateObject, getDeletedStateObject, h]
  cases s.db.account addr <;> rfl

/-! ## How the changes show in `observe` -/

theorem observe_putObject (s : StateDB) (addr : Address) (obj : StateObject) :
    (s.putObject addr obj).observe =
      { s.observe with
        objects := Function.update s.observe.objects addr
          (if obj.deleted then none else some (obj.view s.db)) } := by
  simp only [observe]
  congr 1
  funext a
  rw [getStateObject_putObject]
  by_cases h : a = addr
  · subst h
    cases obj.deleted <;> simp
  · simp [h]

/-- Two states the accessors cannot tell apart stay so when an object that reads the same is put
    under one address of each. -/
theorem Same.putObject {s t : StateDB} (h : Same s t) (addr : Address) {o₁ o₂ : StateObject}
    (hv : o₁.view s.db = o₂.view s.db) (hdel : o₁.deleted = o₂.deleted) :
    Same (s.putObject addr o₁) (t.putObject addr o₂) := by
  unfold Same
  rw [observe_putObject, observe_putObject, ← h, ← h.db, hv, hdel]

/-- Putting back, under `addr`, an object that reads as the one there changes nothing the
    accessors see. -/
theorem same_putObject_of_view {s : StateDB} {addr : Address} {obj obj' : StateObject}
    (h : s.getStateObject addr = some obj) (hv : obj'.view s.db = obj.view s.db)
    (hdel : obj'.deleted = false) : Same (s.putObject addr obj') s := by
  have hobj : Function.update s.observe.objects addr (some (obj.view s.db)) = s.observe.objects := by
    funext a
    by_cases ha : a = addr
    · subst ha
      simp [observe, h]
    · simp [ha]
  unfold Same
  rw [observe_putObject, hdel, if_neg Bool.false_ne_true, hv, hobj]

theorem same_putObject_self {s : StateDB} {addr : Address} {obj : StateObject}
    (h : s.getStateObject addr = some obj) : Same (s.putObject addr obj) s :=
  same_putObject_of_view h rfl (deleted_of_getStateObject h)

/-- With nothing live at `addr`, the committed account shows there. -/
theorem observe_deleteObject (s : StateDB) (addr : Address) :
    ({ s with stateObjects := Function.update s.stateObjects addr none } : StateDB).observe =
      { s.observe with
        objects := Function.update s.observe.objects addr
          ((s.db.account addr).map fun acc => (newObject addr acc).view s.db) } := by
  simp only [observe]
  congr 1
  funext a
  by_cases h : a = addr
  · subst h
    rw [getStateObject_of_not_live (Function.update_self _ _ _), Function.update_self,
      Option.map_map]
    rfl
  · rw [Function.update_of_ne h]
    simp [getStateObject, getDeletedStateObject, h]

/-- Two states the accessors cannot tell apart, changed alike in what is not an account. -/
theorem Same.congr {s t s' t' : StateDB} (h : Same s t) (f : Observation → Observation)
    (hs : s'.observe = f s.observe) (ht : t'.observe = f t.observe) : Same s' t' := by
  unfold Same
  rw [hs, ht, h]

/-- The objects two such states show at an address read alike. -/
theorem Same.objectRel {s t : StateDB} (h : Same s t) (a : Address) :
    Option.Rel (fun o₁ o₂ => o₁.view s.db = o₂.view s.db ∧ o₁.deleted = false ∧ o₂.deleted = false)
      (s.getStateObject a) (t.getStateObject a) := by
  have hobj := h.objects a
  rw [← h.db] at hobj
  cases hs : s.getStateObject a with
  | none =>
    cases ht : t.getStateObject a with
    | none => exact .none
    | some o₂ =>
      rw [hs, ht] at hobj
      cases hobj
  | some o₁ =>
    cases ht : t.getStateObject a with
    | none =>
      rw [hs, ht] at hobj
      cases hobj
    | some o₂ =>
      rw [hs, ht, Option.map_some, Option.map_some, Option.some_inj] at hobj
      exact .some ⟨hobj, deleted_of_getStateObject hs, deleted_of_getStateObject ht⟩

/-! ## Every revert respects `Same` -/

/-- A change through the pointer that takes objects reading alike to objects reading alike. -/
theorem Same.modifyObject {s t : StateDB} (h : Same s t) (addr : Address)
    {f : StateObject → StateObject}
    (hf : ∀ o₁ o₂, o₁.view s.db = o₂.view s.db → (f o₁).view s.db = (f o₂).view s.db)
    (hdel : ∀ o, (f o).deleted = o.deleted) :
    Option.Rel Same (s.modifyObject addr f) (t.modifyObject addr f) := by
  have hrel := h.objectRel addr
  unfold StateDB.modifyObject
  generalize s.getStateObject addr = x at hrel ⊢
  generalize t.getStateObject addr = y at hrel ⊢
  cases hrel with
  | none => exact .none
  | some hv =>
    exact .some (h.putObject addr (hf _ _ hv.1) (by rw [hdel, hdel, hv.2.1, hv.2.2]))

/-- Each entry's revert takes states the accessors cannot tell apart to such states, or panics
    on both. -/
theorem revert_same (e : JournalEntry) {s t : StateDB} (h : Same s t) :
    Option.Rel Same (e.revert s) (e.revert t) := by
  cases e with
  | createObjectChange account =>
    exact .some (h.congr (fun o => { o with
        objects := Function.update o.objects account
          ((o.db.account account).map fun acc => (newObject account acc).view o.db) })
      (observe_deleteObject s account) (observe_deleteObject t account))
  | resetObjectChange prev =>
    exact .some (h.putObject prev.address (by rw [h.db]) rfl)
  | suicideChange account prev prevbalance =>
    have hrel := h.objectRel account
    simp only [JournalEntry.revert]
    generalize s.getStateObject account = x at hrel ⊢
    generalize t.getStateObject account = y at hrel ⊢
    cases hrel with
    | none => exact .some h
    | @some o₁ o₂ hv =>
      refine .some (h.putObject account ?_ (by simp only [hv.2.1, hv.2.2]))
      rw [StateObject.view_setSuicided o₁, StateObject.view_setSuicided o₂, hv.1]
  | balanceChange account prev =>
    refine h.modifyObject account (fun o₁ o₂ hv => ?_) (fun _ => rfl)
    rw [StateObject.view_setBalance o₁, StateObject.view_setBalance o₂, hv]
  | nonceChange account prev =>
    refine h.modifyObject account (fun o₁ o₂ hv => ?_) (fun _ => rfl)
    rw [StateObject.view_setNonce o₁, StateObject.view_setNonce o₂, hv]
  | storageChange account key prevalue =>
    refine h.modifyObject account (fun o₁ o₂ hv => ?_) (fun _ => rfl)
    rw [StateObject.view_setDirty o₁, StateObject.view_setDirty o₂, hv]
  | codeChange account prevcode prevhash =>
    refine h.modifyObject account (fun o₁ o₂ hv => ?_) (fun _ => rfl)
    rw [StateObject.view_setCode o₁, StateObject.view_setCode o₂, hv]
  | accountExtraDataChange account prev =>
    refine h.modifyObject account (fun o₁ o₂ hv => ?_) (fun _ => rfl)
    rw [StateObject.view_setAccountExtraData o₁, StateObject.view_setAccountExtraData o₂, hv]
  | refundChange prev =>
    exact .some (h.congr (fun o => { o with refund := prev }) rfl rfl)
  | addLogChange txhash =>
    have hlogs : t.logs = s.logs := (congrArg Observation.logs h).symm
    simp only [JournalEntry.revert, hlogs]
    cases hlen : (s.logs txhash).length with
    | zero => exact .none
    | succ n =>
      cases n with
      | zero =>
        exact .some (h.congr
          (fun o => { o with
            logs := Function.update s.logs txhash []
            logSize := o.logSize - 1 })
          rfl rfl)
      | succ n =>
        exact .some (h.congr
          (fun o => { o with
            logs := Function.update s.logs txhash ((s.logs txhash).take (n + 1))
            logSize := o.logSize - 1 })
          rfl rfl)
  | addPreimageChange hash =>
    exact .some (h.congr (fun o => { o with preimages := Function.update o.preimages hash none })
      rfl rfl)
  | touchChange _ => exact .some h
  | accessListAddAccountChange address =>
    exact .some (h.congr (fun o => { o with accessList := o.accessList.deleteAddress address })
      rfl rfl)
  | accessListAddSlotChange address slot =>
    have hal : t.accessList = s.accessList := h.accessList.symm
    simp only [JournalEntry.revert, hal]
    cases s.accessList.deleteSlot address slot with
    | none => exact .none
    | some al => exact .some (h.congr (fun o => { o with accessList := al }) rfl rfl)

theorem revert_respects : Respects JournalEntry.revert Same :=
  fun e _ _ h => revert_same e h

/-! ## The accessors read only what `observe` sees -/

/-- The public accessors of two states answer alike, `GetManagedParties` up to its nil and empty
    slices. -/
structure SameAccessors (s t : StateDB) : Prop where
  exist : ∀ addr, s.exist addr = t.exist addr
  empty : ∀ addr, s.empty addr = t.empty addr
  getBalance : ∀ addr, s.getBalance addr = t.getBalance addr
  getNonce : ∀ addr, s.getNonce addr = t.getNonce addr
  getCode : ∀ addr, s.getCode addr = t.getCode addr
  getCodeSize : ∀ addr, s.getCodeSize addr = t.getCodeSize addr
  getCodeHash : ∀ addr, s.getCodeHash addr = t.getCodeHash addr
  getState : ∀ addr key, s.getState addr key = t.getState addr key
  getCommittedState : ∀ addr key, s.getCommittedState addr key = t.getCommittedState addr key
  hasSuicided : ∀ addr, s.hasSuicided addr = t.hasSuicided addr
  getPrivacyMetadata : ∀ addr, s.getPrivacyMetadata addr = t.getPrivacyMetadata addr
  getCommittedStatePrivacyMetadata :
    ∀ addr, s.getCommittedStatePrivacyMetadata addr = t.getCommittedStatePrivacyMetadata addr
  getManagedParties :
    ∀ addr, (s.getManagedParties addr).getD [] = (t.getManagedParties addr).getD []
  getRefund : s.getRefund = t.getRefund
  getLogs : ∀ hash, s.getLogs hash = t.getLogs hash
  preimages : s.preimages = t.preimages
  addressInAccessList : ∀ addr, s.addressInAccessList addr = t.addressInAccessList addr
  slotInAccessList : ∀ addr slot, s.slotInAccessList addr slot = t.slotInAccessList addr slot

/-- An accessor of an account that reads the object only through its view answers alike on two
    states the accessors cannot tell apart. -/
theorem Same.readObject {α : Type} {s t : StateDB} (h : Same s t) (a : Address) (default : α)
    (f : Database → StateObject → α)
    (hf : ∀ o₁ o₂, o₁.view s.db = o₂.view s.db → f s.db o₁ = f s.db o₂) :
    s.readObject a default (f s.db) = t.readObject a default (f t.db) := by
  have hrel := h.objectRel a
  rw [← h.db]
  unfold StateDB.readObject
  generalize s.getStateObject a = x at hrel ⊢
  generalize t.getStateObject a = y at hrel ⊢
  cases hrel with
  | none => rfl
  | some hv => exact hf _ _ hv.1

/-- Every public accessor reads only what `observe` sees. -/
theorem Same.sameAccessors {s t : StateDB} (h : Same s t) : SameAccessors s t where
  exist a := by
    have hrel := h.objectRel a
    unfold exist
    generalize s.getStateObject a = x at hrel ⊢
    generalize t.getStateObject a = y at hrel ⊢
    cases hrel <;> rfl
  empty a := h.readObject a true (fun _ so => so.empty) fun o₁ o₂ hv => by
    have hn : o₁.data.nonce = o₂.data.nonce := congrArg ObjectView.nonce hv
    have hb : o₁.data.balance = o₂.data.balance := congrArg ObjectView.balance hv
    have hc : o₁.data.codeHash = o₂.data.codeHash := congrArg ObjectView.codeHash hv
    simp only [StateObject.empty, hn, hb, hc]
  getBalance a := h.readObject a 0 (fun _ so => so.data.balance) fun _ _ hv =>
    congrArg ObjectView.balance hv
  getNonce a := h.readObject a 0 (fun _ so => so.data.nonce) fun _ _ hv =>
    congrArg ObjectView.nonce hv
  getCode a := h.readObject a [] (fun db so => so.getCode db) fun _ _ hv =>
    congrArg ObjectView.code hv
  getCodeSize a := h.readObject a 0 (fun db so => so.codeSize db) fun _ _ hv => by
    simp only [StateObject.codeSize_eq]
    exact congrArg (List.length ∘ ObjectView.code) hv
  getCodeHash a := h.readObject a 0 (fun _ so => so.data.codeHash) fun _ _ hv =>
    congrArg ObjectView.codeHash hv
  getState a key := h.readObject a 0 (fun _ so => so.getState key) fun _ _ hv =>
    congrFun (congrArg ObjectView.state hv) key
  getCommittedState a key := h.readObject a 0 (fun _ so => so.getCommittedState key)
    fun _ _ hv => congrFun (congrArg ObjectView.committedState hv) key
  hasSuicided a := h.readObject a false (fun _ so => so.suicided) fun _ _ hv =>
    congrArg ObjectView.suicided hv
  getPrivacyMetadata a := h.readObject a (Except.ok none)
    (fun db so => (so.privacyMetadata db).map some) fun o₁ o₂ hv => by
      simp only [StateObject.privacyMetadata_eq_view, hv]
  getCommittedStatePrivacyMetadata a := h.readObject a (Except.ok none)
    (fun db so => (so.getCommittedPrivacyMetadata db).map some) fun o₁ o₂ hv => by
      have haddr : o₁.address = o₂.address := congrArg ObjectView.address hv
      simp only [StateObject.getCommittedPrivacyMetadata, haddr]
  getManagedParties a := by
    -- the parties compared after `getD`, which the object's view determines
    have hrel := h.objectRel a
    unfold getManagedParties StateDB.readObject
    rw [← h.db]
    generalize s.getStateObject a = x at hrel ⊢
    generalize t.getStateObject a = y at hrel ⊢
    cases hrel with
    | none => rfl
    | some hv => simp only [StateObject.managedParties_getD, hv.1]
  getRefund := congrArg Observation.refund h
  getLogs hash := congrFun (congrArg Observation.logs h) hash
  preimages := congrArg Observation.preimages h
  addressInAccessList a := by simp only [addressInAccessList, h.accessList]
  slotInAccessList a slot := by simp only [slotInAccessList, h.accessList]

end StateDB

end QuorumHotstuff.State
