import QuorumHotstuff.State.Observe

/-!
# Each journaled change is undone by its entries

Every mutation of the `StateDB` interface appends entries to the journal whose reverts, from the
last back, lead to a state the accessors cannot tell from the one before the mutation
(`Call.apply_step`).  What it takes is that each live object sits under its own address (`Keyed`),
so that `resetObjectChange`, which puts the replaced object back under its address, puts it where
it was; and that the access list is well formed, so that `AddSlot` does not panic and the set a
slot was added to does not empty when it is deleted.  Both hold after every mutation.

The setters of the interface all run a state-object method on the object `GetOrNewStateObject`
gives (`withObject`): the creation it may journal is undone last, the method's own entries first
(`withObject_step`), each method's from any state that shows the object it left
(`StateObject.Reverts`).
-/

namespace QuorumHotstuff.State

open QuorumHotstuff.Hotstuff (Address Hash)
open QuorumHotstuff.Lib

namespace StateDB

/-- Each live object sits under its own address. -/
def Keyed (s : StateDB) : Prop := ∀ a o, s.stateObjects a = some o → o.address = a

/-- The entries appended to the journal lead back, up to what the accessors see. -/
def Undoes (s s' : StateDB) (es : List JournalEntry) : Prop :=
  ∃ u, undoAll JournalEntry.revert es s' = some u ∧ Same u s

theorem Keyed.getDeletedStateObject {s : StateDB} (hk : s.Keyed) {a : Address} {o : StateObject}
    (h : s.getDeletedStateObject a = some o) : o.address = a := by
  unfold StateDB.getDeletedStateObject at h
  split at h
  · cases h
    exact hk a o ‹_›
  · obtain ⟨acc, -, rfl⟩ := Option.map_eq_some_iff.mp h
    rfl

theorem getDeletedStateObject_of_getStateObject {s : StateDB} {a : Address} {o : StateObject}
    (h : s.getStateObject a = some o) : s.getDeletedStateObject a = some o := by
  unfold getStateObject at h
  split at h
  · split_ifs at h
    cases h
    assumption
  · cases h

theorem Keyed.getStateObject {s : StateDB} (hk : s.Keyed) {a : Address} {o : StateObject}
    (h : s.getStateObject a = some o) : o.address = a :=
  hk.getDeletedStateObject (getDeletedStateObject_of_getStateObject h)

theorem Keyed.putObject {s : StateDB} (hk : s.Keyed) {a : Address} {o : StateObject}
    (h : o.address = a) : (s.putObject a o).Keyed := by
  intro b p hb
  by_cases hba : b = a
  · subst hba
    simp only [StateDB.putObject, Function.update_self, Option.some.injEq] at hb
    rw [← hb, h]
  · simp only [StateDB.putObject, Function.update_of_ne hba] at hb
    exact hk b p hb

theorem putObject_putObject (s : StateDB) (a : Address) (o o' : StateObject) :
    (s.putObject a o).putObject a o' = s.putObject a o' := by
  simp [putObject]

/-- An object `getDeletedStateObject` returns, put back under its address, changes nothing the
    accessors see, deleted or not. -/
theorem same_putObject_deleted {s : StateDB} {addr : Address} {p : StateObject}
    (h : s.getDeletedStateObject addr = some p) : Same (s.putObject addr p) s := by
  have hobj : Function.update s.observe.objects addr
      (if p.deleted then none else some (p.view s.db)) = s.observe.objects := by
    funext a
    by_cases ha : a = addr
    · subst ha
      simp only [Function.update_self, observe, getStateObject, h]
      cases p.deleted <;> rfl
    · simp [ha]
  unfold Same
  rw [observe_putObject, hobj]

/-- A state with more on its journal reads the same. -/
theorem same_journal (s : StateDB) (journal : List JournalEntry) :
    Same { s with journal := journal } s := rfl

/-! ## Creating an object -/

/-- `createObject` journals one entry and puts a new object under the address; the entry undoes
    it, whatever object is under the address after it. -/
theorem createObject_spec {s : StateDB} (hk : s.Keyed) (addr : Address) :
    ∃ e, (s.createObject addr).1 = (s.append e).putObject addr (newObject addr zeroAccount) ∧
      ∀ obj, Undoes s ((s.append e).putObject addr obj) [e] := by
  unfold createObject
  cases hp : s.getDeletedStateObject addr with
  | none =>
    refine ⟨_, rfl, fun obj => ?_⟩
    -- nothing live and nothing committed: deleting the key gives back the objects
    have hlive : s.stateObjects addr = none := by
      unfold getDeletedStateObject at hp
      split at hp
      · cases hp
      · assumption
    refine ⟨{ s with journal := s.journal ++ [.createObjectChange addr] }, ?_,
      same_journal s _⟩
    simp only [append, putObject, undoAll_cons, undoAll_nil, Option.bind_some,
      JournalEntry.revert, Function.update_idem]
    rw [← hlive, Function.update_eq_self]
  | some p =>
    refine ⟨_, rfl, fun obj => ?_⟩
    -- the replaced object goes back under its address, which is `addr`
    have hpa : p.address = addr := hk.getDeletedStateObject hp
    refine ⟨(s.append (.resetObjectChange p)).putObject addr p, ?_,
      same_putObject_deleted (s := s.append (.resetObjectChange p)) hp⟩
    simp only [append, setStateObject, putObject, undoAll_cons, undoAll_nil, Option.bind_some,
      JournalEntry.revert, Function.update_idem, hpa]

/-! ## Changes to the live objects only -/

/-- `s'` is `s` with entries appended to its journal and its live objects changed. -/
def ObjectsChange (s s' : StateDB) (es : List JournalEntry) : Prop :=
  s' = { s with journal := s.journal ++ es, stateObjects := s'.stateObjects }

theorem ObjectsChange.refl (s : StateDB) : ObjectsChange s s [] := by
  simp [ObjectsChange]

theorem ObjectsChange.putObject {s s' : StateDB} {es : List JournalEntry}
    (h : ObjectsChange s s' es) (a : Address) (o : StateObject) :
    ObjectsChange s (s'.putObject a o) es := by
  unfold ObjectsChange at h ⊢
  rw [h]
  rfl

theorem ObjectsChange.append {s s' : StateDB} {es : List JournalEntry}
    (h : ObjectsChange s s' es) (fs : List JournalEntry) :
    ObjectsChange s { s' with journal := s'.journal ++ fs } (es ++ fs) := by
  unfold ObjectsChange at h ⊢
  rw [h]
  simp

/-- A journaled change: the entries it appended undo it, it keeps the revisions, and it keeps
    live objects under their addresses and the access list well formed. -/
structure Change (s s' : StateDB) (es : List JournalEntry) : Prop where
  journal : s'.journal = s.journal ++ es
  undoes : Undoes s s' es
  validRevisions : s'.validRevisions = s.validRevisions
  nextRevisionId : s'.nextRevisionId = s.nextRevisionId
  keyed : s'.Keyed
  accessList : s'.accessList.WF

theorem ObjectsChange.change {s s' : StateDB} {es : List JournalEntry} (h : ObjectsChange s s' es)
    (hu : Undoes s s' es) (hk : s'.Keyed) (hal : s.accessList.WF) : Change s s' es := by
  rw [h] at hk hu ⊢
  exact ⟨rfl, hu, rfl, rfl, hk, hal⟩

/-- A change that journals nothing and leaves the state as it was. -/
theorem Change.rfl {s : StateDB} (hk : s.Keyed) (hal : s.accessList.WF) : Change s s [] :=
  ⟨by simp, ⟨s, Eq.refl _, Eq.refl _⟩, Eq.refl _, Eq.refl _, hk, hal⟩

/-- `GetOrNewStateObject`: the object it returns shows under `addr` in the state it leaves and sits
    under `addr`, and a creation it journals is undone by its entry. -/
theorem getOrNewStateObject_spec {s s₁ : StateDB} {addr : Address} {o : StateObject}
    (hk : s.Keyed) (h : s.getOrNewStateObject addr = (s₁, o)) :
    s₁.getStateObject addr = some o ∧ o.address = addr ∧ s₁.Keyed ∧
      ∃ es, ObjectsChange s s₁ es ∧ Journaled JournalEntry.revert Same s s₁ es := by
  unfold getOrNewStateObject at h
  cases hs : s.getStateObject addr with
  | some obj =>
    rw [hs, Prod.mk.injEq] at h
    obtain ⟨rfl, rfl⟩ := h
    exact ⟨hs, hk.getStateObject hs, hk, [], ObjectsChange.refl s, .refl⟩
  | none =>
    rw [hs, Prod.mk.injEq] at h
    obtain ⟨rfl, rfl⟩ := h
    obtain ⟨e, he, hundo⟩ := createObject_spec hk addr
    rw [he]
    refine ⟨?_, rfl, hk.putObject rfl, [e], (ObjectsChange.refl s |>.append [e]).putObject addr _,
      .step .refl (hundo _)⟩
    rw [getStateObject_putObject, if_pos rfl]
    rfl

/-! ## The state-object methods -/

/-- A state-object method's entries undo it: from any state that shows under `addr` the object the
    method left, they lead to one the accessors cannot tell from that state with `o` put back. -/
def Reverts (db : Database) (addr : Address) (o : StateObject)
    (r : List JournalEntry × StateObject) : Prop :=
  r.2.deleted = o.deleted ∧ r.2.address = o.address ∧
    ∀ t : StateDB, t.db = db → t.getStateObject addr = some r.2 → Undoes (t.putObject addr o) t r.1

theorem modifyObject_of_getStateObject {t : StateDB} {addr : Address} {o : StateObject}
    (h : t.getStateObject addr = some o) (f : StateObject → StateObject) :
    t.modifyObject addr f = some (t.putObject addr (f o)) := by
  simp [modifyObject, h]

/-- A method that journals nothing and leaves the object as it was. -/
theorem reverts_nil (db : Database) (addr : Address) (o : StateObject) : Reverts db addr o ([], o) :=
  ⟨Eq.refl _, Eq.refl _, fun _ _ ht => ⟨_, Eq.refl _, (same_putObject_self ht).symm⟩⟩

theorem reverts_touch (db : Database) (addr : Address) (o : StateObject) :
    Reverts db addr o o.touch :=
  ⟨Eq.refl _, Eq.refl _, fun _ _ ht => ⟨_, Eq.refl _, (same_putObject_self ht).symm⟩⟩

/-- A method whose one entry's revert changes back, through the pointer, an object `f` had changed:
    undoing it gives back an object that reads as `o`. -/
theorem reverts_modify (db : Database) {addr : Address} {o : StateObject} (e : JournalEntry)
    (o' : StateObject) (f : StateObject → StateObject)
    (hrevert : ∀ t, e.revert t = t.modifyObject addr f) (hdel : o'.deleted = o.deleted)
    (haddr : o'.address = o.address) (hv : (f o').view db = o.view db)
    (hfdel : (f o').deleted = o.deleted) : Reverts db addr o ([e], o') := by
  refine ⟨hdel, haddr, fun t htdb ht => ⟨t.putObject addr (f o'), ?_, ?_⟩⟩
  · show e.revert t = _
    rw [hrevert, modifyObject_of_getStateObject ht]
  · exact (same_equivalence.refl t).putObject addr (by rw [htdb, hv]) hfdel

theorem reverts_setBalance (db : Database) {addr : Address} {o : StateObject}
    (ho : o.address = addr) (amount : Int) : Reverts db addr o (o.setBalance amount) :=
  reverts_modify db _ _ (fun obj => { obj with data.balance := o.data.balance })
    (fun t => by rw [← ho]; rfl) rfl rfl rfl rfl

theorem reverts_setNonce (db : Database) {addr : Address} {o : StateObject}
    (ho : o.address = addr) (nonce : UInt64) : Reverts db addr o (o.setNonce nonce) :=
  reverts_modify db _ _ (fun obj => { obj with data.nonce := o.data.nonce })
    (fun t => by rw [← ho]; rfl) rfl rfl rfl rfl

theorem reverts_addBalance (db : Database) {addr : Address} {o : StateObject}
    (ho : o.address = addr) (amount : Int) : Reverts db addr o (o.addBalance amount) := by
  unfold StateObject.addBalance
  split_ifs
  · exact reverts_touch db addr o
  · exact reverts_nil db addr o
  · exact reverts_setBalance db ho _

theorem reverts_subBalance (db : Database) {addr : Address} {o : StateObject}
    (ho : o.address = addr) (amount : Int) : Reverts db addr o (o.subBalance amount) := by
  unfold StateObject.subBalance
  split_ifs
  · exact reverts_nil db addr o
  · exact reverts_setBalance db ho _

/-- Caching the code `Code` returns changes nothing it returns. -/
theorem getCode_cache (o : StateObject) (db : Database) :
    ({ o with code := o.getCode db } : StateObject).getCode db = o.getCode db := by
  unfold StateObject.getCode
  split_ifs <;> simp_all

theorem view_cacheCode (o : StateObject) (db : Database) :
    ({ o with code := o.getCode db } : StateObject).view db = o.view db := by
  unfold StateObject.view
  rw [getCode_cache]
  rfl

theorem reverts_setCode (db : Database) {addr : Address} {o : StateObject}
    (ho : o.address = addr) (codeHash : Hash) (code : List Nat) :
    Reverts db addr o (o.setCode db codeHash code) :=
  reverts_modify db _ _ (fun obj => { obj with code := o.getCode db, data.codeHash := o.data.codeHash })
    (fun t => by rw [← ho]; rfl) rfl rfl (view_cacheCode o db) rfl

theorem reverts_setState (db : Database) {addr : Address} {o : StateObject}
    (ho : o.address = addr) (key value : Hash) : Reverts db addr o (o.setState key value) := by
  unfold StateObject.setState
  split_ifs
  · exact reverts_nil db addr o
  · refine reverts_modify db _ _
      (fun obj => { obj with
        dirtyStorage := Function.update obj.dirtyStorage key (some (o.getState key)) })
      (fun t => by rw [← ho]; rfl) rfl rfl ?_ rfl
    -- the key gets back the value `GetState` read
    have hv := StateObject.view_setDirty o db key (o.getState key)
    simp only [Function.update_idem] at hv ⊢
    rw [hv]
    change { o.view db with state := Function.update (o.view db).state key ((o.view db).state key) } = _
    rw [Function.update_eq_self]

/-- Putting back a copy of the extra data `AccountExtraData` returned changes nothing it reads. -/
theorem view_restoreExtraData (o : StateObject) (db : Database) :
    ({ o with accountExtraData := (o.getAccountExtraData db).map AccountExtraData.copy }).view db =
      o.view db := by
  unfold StateObject.view
  congr 1
  unfold StateObject.getAccountExtraData
  cases o.accountExtraData with
  | some e => simp
  | none => cases db.accountExtraData o.address <;> simp

theorem reverts_setStatePrivacyMetadata (db : Database) {addr : Address} {o : StateObject}
    (ho : o.address = addr) (pm : Option PrivacyMetadata) :
    Reverts db addr o (o.setStatePrivacyMetadata db pm) :=
  reverts_modify db _ _
    (fun obj => { obj with accountExtraData := (o.getAccountExtraData db).map AccountExtraData.copy })
    (fun t => by rw [← ho]; rfl) rfl rfl (view_restoreExtraData o db) rfl

theorem reverts_setManagedParties (db : Database) {addr : Address} {o : StateObject}
    (ho : o.address = addr) (managedParties : List (List Nat)) :
    Reverts db addr o (o.setManagedParties db managedParties) :=
  reverts_modify db _ _
    (fun obj => { obj with accountExtraData := (o.getAccountExtraData db).map AccountExtraData.copy })
    (fun t => by rw [← ho]; rfl) rfl rfl (view_restoreExtraData o db) rfl

/-! ## The interface's mutations -/

/-- A method run on the object `GetOrNewStateObject` gives is undone by the method's entries, then
    by the creation's. -/
theorem withObject_change {s : StateDB} (hk : s.Keyed) (hal : s.accessList.WF) (addr : Address)
    {m : StateObject → List JournalEntry × StateObject}
    (hm : ∀ o, o.address = addr → Reverts s.db addr o (m o)) :
    ∃ es, Change s (s.withObject addr m) es := by
  unfold withObject
  generalize hr : s.getOrNewStateObject addr = r
  obtain ⟨s₁, o⟩ := r
  obtain ⟨hget, ho, hk₁, es₀, hch, hj⟩ := getOrNewStateObject_spec hk hr
  have hdb : s₁.db = s.db := by rw [hch]
  obtain ⟨hdel, haddr, hundo⟩ := hm o ho
  have hdel₀ := deleted_of_getStateObject hget
  let s₂ := ({ s₁ with journal := s₁.journal ++ (m o).1 } : StateDB).putObject addr (m o).2
  have hget₂ : s₂.getStateObject addr = some (m o).2 := by
    rw [getStateObject_putObject, if_pos rfl, hdel, hdel₀]
    rfl
  obtain ⟨u, hu, hsame⟩ := hundo s₂ hdb hget₂
  -- with `o` back, the state is the one `GetOrNewStateObject` left, with a longer journal
  have hback : Same u s₁ := by
    rw [putObject_putObject] at hsame
    exact hsame.trans ((same_putObject_self (s := { s₁ with journal := s₁.journal ++ (m o).1 })
      hget).trans (same_journal s₁ _))
  obtain ⟨v, hv, hvs⟩ := (hj.step ⟨u, hu, hback⟩).undoAll_eq same_equivalence revert_respects
  exact ⟨es₀ ++ (m o).1, ((hch.append _).putObject addr _).change ⟨v, hv, hvs⟩
    (Keyed.putObject (s := { s₁ with journal := s₁.journal ++ (m o).1 }) hk₁ (haddr.trans ho)) hal⟩

/-- `CreateAccount`: the creation's entry undoes it, whichever object it leaves. -/
theorem createAccount_change {s : StateDB} (hk : s.Keyed) (hal : s.accessList.WF)
    (addr : Address) : ∃ es, Change s (s.createAccount addr) es := by
  obtain ⟨e, he, hundo⟩ := createObject_spec hk addr
  -- the new object, with the balance it carries over or not, under `addr`
  obtain ⟨obj, hobj, hres⟩ : ∃ obj : StateObject, obj.address = addr ∧
      s.createAccount addr = (s.append e).putObject addr obj := by
    unfold createAccount
    dsimp only
    split
    · rw [he, putObject_putObject]
      exact ⟨_, rfl, rfl⟩
    · rw [he]
      exact ⟨_, rfl, rfl⟩
  rw [hres]
  exact ⟨[e], ((ObjectsChange.refl s).append [e] |>.putObject addr obj).change (hundo obj)
    (Keyed.putObject (s := s.append e) hk hobj) hal⟩

/-- `Suicide` of a live account is undone by its entry; of no account it does nothing. -/
theorem suicide_change {s : StateDB} (hk : s.Keyed) (hal : s.accessList.WF) (addr : Address) :
    ∃ es, Change s (s.suicide addr).1 es := by
  unfold suicide
  cases hs : s.getStateObject addr with
  | none => exact ⟨[], Change.rfl hk hal⟩
  | some obj =>
    let e := JournalEntry.suicideChange addr obj.suicided obj.data.balance
    let obj' : StateObject := { obj with suicided := true, data.balance := 0 }
    have hget : ((s.append e).putObject addr obj').getStateObject addr = some obj' := by
      rw [getStateObject_putObject, if_pos rfl, if_neg (by simp [obj', deleted_of_getStateObject hs])]
    have hundo : Undoes s ((s.append e).putObject addr obj') [e] := by
      refine ⟨(s.append e).putObject addr obj, ?_, ?_⟩
      · show e.revert _ = _
        simp only [e, JournalEntry.revert, hget, putObject_putObject]
        rfl
      · exact (same_putObject_self (s := s.append e) hs).trans (same_journal s _)
    have haddr : obj.address = addr := hk.getStateObject hs
    exact ⟨[e], ((ObjectsChange.refl s).append [e] |>.putObject addr obj').change hundo
      (Keyed.putObject (s := s.append e) hk haddr) hal⟩

/-- A change to what is not an account, undone exactly but for the journal. -/
theorem change_of_undo {s s' : StateDB} {es : List JournalEntry} (hj : s'.journal = s.journal ++ es)
    (hundo : undoAll JournalEntry.revert es s' = some { s with journal := s'.journal })
    (hrev : s'.validRevisions = s.validRevisions) (hnext : s'.nextRevisionId = s.nextRevisionId)
    (hk : s'.Keyed) (hal : s'.accessList.WF) : Change s s' es :=
  ⟨hj, ⟨_, hundo, same_journal s _⟩, hrev, hnext, hk, hal⟩

theorem addLog_change {s : StateDB} (hk : s.Keyed) (hal : s.accessList.WF) (log : Log) :
    ∃ es, Change s (s.addLog log) es := by
  refine ⟨[.addLogChange s.thash], change_of_undo rfl ?_ rfl rfl hk hal⟩
  -- the appended log is the last of its transaction's
  cases hlen : (s.logs s.thash).length with
  | zero =>
    have hnil : s.logs s.thash = [] := List.length_eq_zero_iff.mp hlen
    simp only [undoAll_cons, undoAll_nil, Option.bind_some, JournalEntry.revert, addLog, append,
      Function.update_self, List.length_append, hlen, List.length_singleton,
      Function.update_idem, UInt64.add_sub_cancel]
    rw [← hnil, Function.update_eq_self]
  | succ n =>
    have htake : ∀ x, (s.logs s.thash ++ [x]).take (n + 1) = s.logs s.thash := fun x => by
      rw [← hlen, List.take_left]
    simp only [undoAll_cons, undoAll_nil, Option.bind_some, JournalEntry.revert, addLog, append,
      Function.update_self, List.length_append, hlen, List.length_singleton,
      Function.update_idem, UInt64.add_sub_cancel, htake, Function.update_eq_self]

theorem addPreimage_change {s : StateDB} (hk : s.Keyed) (hal : s.accessList.WF) (hash : Hash)
    (preimage : List Nat) : ∃ es, Change s (s.addPreimage hash preimage) es := by
  unfold addPreimage
  cases hp : s.preimages hash with
  | some _ => exact ⟨[], Change.rfl hk hal⟩
  | none =>
    refine ⟨[.addPreimageChange hash], change_of_undo rfl ?_ rfl rfl hk hal⟩
    simp only [undoAll_cons, undoAll_nil, Option.bind_some, JournalEntry.revert, append,
      Function.update_idem]
    rw [← hp, Function.update_eq_self]

theorem addAddressToAccessList_change {s : StateDB} (hk : s.Keyed) (hal : s.accessList.WF)
    (addr : Address) : ∃ es, Change s (s.addAddressToAccessList addr) es := by
  unfold addAddressToAccessList
  split_ifs with hnew
  · have hnone : s.accessList.addresses addr = none := by
      unfold AccessList.addAddress at hnew
      split at hnew
      · cases hnew
      · assumption
    refine ⟨[.accessListAddAccountChange addr], change_of_undo rfl ?_ rfl rfl hk
      (hal.addAddress addr)⟩
    simp only [undoAll_cons, undoAll_nil, Option.bind_some, JournalEntry.revert, append,
      AccessList.deleteAddress_addAddress hnone]
  · exact ⟨[], Change.rfl hk hal⟩

theorem addSlotToAccessList_change {s s' : StateDB} (hk : s.Keyed) (hal : s.accessList.WF)
    {addr : Address} {slot : Hash} (h : s.addSlotToAccessList addr slot = some s') :
    ∃ es, Change s s' es := by
  unfold addSlotToAccessList at h
  obtain ⟨⟨al, c⟩, hslot, rfl⟩ := Option.map_eq_some_iff.mp h
  have hal' := hal.addSlot hslot
  rcases AccessList.addSlot_cases hslot with ⟨hnone, rfl, rfl⟩ | ⟨hfresh, rfl, rfl⟩ |
    ⟨idx, slotmap, hidx, hne, hset, ⟨-, rfl, rfl⟩ | ⟨-, rfl, rfl⟩⟩
  · -- a new address: its slot set goes, then the address
    refine ⟨[.accessListAddAccountChange addr, .accessListAddSlotChange addr slot],
      change_of_undo (by simp [append]) ?_ rfl rfl hk hal'⟩
    simp only [undoAll_cons, undoAll_nil, Option.bind_some, JournalEntry.revert, append,
      AccessList.deleteSlot_addFresh, Option.map_some, AccessList.deleteAddress,
      Function.update_idem, ite_true]
    rw [← hnone, Function.update_eq_self]
  · -- an address without slots: its slot set goes
    refine ⟨[.accessListAddSlotChange addr slot], change_of_undo rfl ?_ rfl rfl hk hal'⟩
    simp only [undoAll_cons, undoAll_nil, Option.bind_some, JournalEntry.revert, append,
      AccessList.deleteSlot_addFresh, Option.map_some, ite_true, ite_false, Bool.false_eq_true]
    rw [← hfresh, Function.update_eq_self]
  · exact ⟨[], Change.rfl hk hal⟩
  · -- the slot goes from the address's set, which the well-formed list keeps nonempty
    obtain ⟨slotmap', hset', hne'⟩ := hal addr idx hidx hne
    rw [hset, Option.some_inj] at hset'
    subst hset'
    refine ⟨[.accessListAddSlotChange addr slot], change_of_undo rfl ?_ rfl rfl hk hal'⟩
    simp only [undoAll_cons, undoAll_nil, Option.bind_some, JournalEntry.revert, append,
      AccessList.deleteSlot_insert slot hidx hset hne', Option.map_some, ite_true, ite_false,
      Bool.false_eq_true]

/-- Every mutation of the interface that does not panic is a journaled change. -/
theorem Call.apply_change (keccak : List Nat → Hash) {c : Call} {s s' : StateDB} (hk : s.Keyed)
    (hal : s.accessList.WF) (h : c.apply keccak s = some s') : ∃ es, Change s s' es := by
  cases c with
  | createAccount addr =>
    cases h
    exact createAccount_change hk hal addr
  | addBalance addr amount =>
    cases h
    exact withObject_change hk hal addr fun o ho => reverts_addBalance s.db ho amount
  | subBalance addr amount =>
    cases h
    exact withObject_change hk hal addr fun o ho => reverts_subBalance s.db ho amount
  | setBalance addr amount =>
    cases h
    exact withObject_change hk hal addr fun o ho => reverts_setBalance s.db ho amount
  | setNonce addr nonce =>
    cases h
    exact withObject_change hk hal addr fun o ho => reverts_setNonce s.db ho nonce
  | setPrivacyMetadata addr metadata =>
    cases h
    exact withObject_change hk hal addr fun o ho =>
      reverts_setStatePrivacyMetadata s.db ho metadata
  | setManagedParties addr managedParties =>
    cases h
    refine withObject_change hk hal addr fun o ho => ?_
    split_ifs
    · exact reverts_setManagedParties s.db ho managedParties
    · exact reverts_nil s.db addr o
  | setCode addr code =>
    cases h
    exact withObject_change hk hal addr fun o ho => reverts_setCode s.db ho (keccak code) code
  | setState addr key value =>
    cases h
    exact withObject_change hk hal addr fun o ho => reverts_setState s.db ho key value
  | suicide addr =>
    cases h
    exact suicide_change hk hal addr
  | addRefund gas =>
    cases h
    exact ⟨[.refundChange s.refund], change_of_undo rfl rfl rfl rfl hk hal⟩
  | subRefund gas =>
    simp only [Call.apply, subRefund] at h
    split_ifs at h
    cases h
    exact ⟨[.refundChange s.refund], change_of_undo rfl rfl rfl rfl hk hal⟩
  | addLog log =>
    cases h
    exact addLog_change hk hal log
  | addPreimage hash preimage =>
    cases h
    exact addPreimage_change hk hal hash preimage
  | addAddressToAccessList addr =>
    cases h
    exact addAddressToAccessList_change hk hal addr
  | addSlotToAccessList addr slot => exact addSlotToAccessList_change hk hal h

end StateDB

end QuorumHotstuff.State
