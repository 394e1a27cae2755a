import QuorumHotstuff.State.Snapshot

/-!
# A revert erases the calls it undoes

The journal exists so that a run with `Snapshot` and `RevertToSnapshot` ends where the same run
without the reverted calls would have ended.  That holds up to what the accessors see: for every
run from a well-formed state with no revisions, the calls that no revert undid, run alone and
with no snapshot taken, reach a state that observes as the run's last (`run_refines_calls`).
Which calls those are is computed from the actions alone (`keptCalls`): a `Snapshot` marks the
calls kept so far under the id it returns, and a revert goes back to the calls of its mark.

It rests on two facts.  Every call reads only what `observe` sees and changes it alike on two
states that observe the same (`Call.apply_same`): the state-object methods read an object only
through its view (`ViewRespecting`), and `createObject` shows the same new object whatever it
journals.  And a revert gives back a state that observes as the one the run was in when the
revision was taken (`revertToSnapshot_same_recorded`), earlier in the same run, by the invariant
of `State.Snapshot`.
-/

namespace QuorumHotstuff.State

open QuorumHotstuff.Hotstuff (Address Hash)
open QuorumHotstuff.Lib

namespace StateObject

/-! ## The methods read an object through its view -/

/-- The object a method leaves reads as a function of what the object read before, and is as
    deleted as it was. -/
structure ViewRespecting (db : Database) (m : StateObject → List JournalEntry × StateObject) :
    Prop where
  view : ∀ o₁ o₂, o₁.view db = o₂.view db → (m o₁).2.view db = (m o₂).2.view db
  deleted : ∀ o, (m o).2.deleted = o.deleted

theorem empty_eq_of_view {o₁ o₂ : StateObject} {db : Database} (hv : o₁.view db = o₂.view db) :
    o₁.empty = o₂.empty := by
  have hn : o₁.data.nonce = o₂.data.nonce := congrArg ObjectView.nonce hv
  have hb : o₁.data.balance = o₂.data.balance := congrArg ObjectView.balance hv
  have hc : o₁.data.codeHash = o₂.data.codeHash := congrArg ObjectView.codeHash hv
  simp only [StateObject.empty, hn, hb, hc]

/-- `SetStatePrivacyMetadata` keeps the parties the view shows, an empty slice where there is no
    extra data. -/
theorem view_setStatePrivacyMetadata (o : StateObject) (db : Database)
    (pm : Option PrivacyMetadata) :
    (o.setStatePrivacyMetadata db pm).2.view db =
      { o.view db with extraData := some (pm, ((o.view db).extraData.map Prod.snd).getD []) } := by
  simp only [setStatePrivacyMetadata, journalAccountExtraData, view_setAccountExtraData]
  unfold view
  cases o.getAccountExtraData db <;> rfl

/-- `SetManagedParties` keeps the metadata the view shows, none where there is no extra data. -/
theorem view_setManagedParties (o : StateObject) (db : Database)
    (managedParties : List (List Nat)) :
    (o.setManagedParties db managedParties).2.view db =
      { o.view db with
        extraData := some (((o.view db).extraData.map Prod.fst).getD none, managedParties) } := by
  simp only [setManagedParties, journalAccountExtraData, view_setAccountExtraData]
  unfold view
  cases o.getAccountExtraData db <;> rfl

theorem viewRespecting_nil (db : Database) : ViewRespecting db fun o => ([], o) :=
  ⟨fun _ _ hv => hv, fun _ => rfl⟩

theorem viewRespecting_setBalance (db : Database) (amount : Int) :
    ViewRespecting db (·.setBalance amount) where
  view o₁ o₂ hv := by
    show ({ o₁ with data.balance := amount }).view db = ({ o₂ with data.balance := amount }).view db
    rw [view_setBalance o₁, view_setBalance o₂, hv]
  deleted _ := rfl

theorem viewRespecting_addBalance (db : Database) (amount : Int) :
    ViewRespecting db (·.addBalance amount) where
  view o₁ o₂ hv := by
    have hb : o₁.data.balance = o₂.data.balance := congrArg ObjectView.balance hv
    show (o₁.addBalance amount).2.view db = (o₂.addBalance amount).2.view db
    unfold addBalance
    -- whether the account is touched, left, or given a new balance reads off the view
    rw [empty_eq_of_view hv, hb]
    split_ifs
    · exact hv
    · exact hv
    · exact (viewRespecting_setBalance db _).view o₁ o₂ hv
  deleted o := by
    show (o.addBalance amount).2.deleted = o.deleted
    unfold addBalance
    split_ifs <;> rfl

theorem viewRespecting_subBalance (db : Database) (amount : Int) :
    ViewRespecting db (·.subBalance amount) where
  view o₁ o₂ hv := by
    have hb : o₁.data.balance = o₂.data.balance := congrArg ObjectView.balance hv
    show (o₁.subBalance amount).2.view db = (o₂.subBalance amount).2.view db
    unfold subBalance
    rw [hb]
    split_ifs
    · exact hv
    · exact (viewRespecting_setBalance db _).view o₁ o₂ hv
  deleted o := by
    show (o.subBalance amount).2.deleted = o.deleted
    unfold subBalance
    split_ifs <;> rfl

theorem viewRespecting_setNonce (db : Database) (nonce : UInt64) :
    ViewRespecting db (·.setNonce nonce) where
  view o₁ o₂ hv := by
    show ({ o₁ with data.nonce := nonce }).view db = ({ o₂ with data.nonce := nonce }).view db
    rw [view_setNonce o₁, view_setNonce o₂, hv]
  deleted _ := rfl

theorem viewRespecting_setCode (db : Database) (codeHash : Hash) (code : List Nat) :
    ViewRespecting db (·.setCode db codeHash code) where
  view o₁ o₂ hv := by
    show ({ o₁ with code := code, data.codeHash := codeHash }).view db =
      ({ o₂ with code := code, data.codeHash := codeHash }).view db
    rw [view_setCode o₁, view_setCode o₂, hv]
  deleted _ := rfl

theorem viewRespecting_setState (db : Database) (key value : Hash) :
    ViewRespecting db (·.setState key value) where
  view o₁ o₂ hv := by
    have hs : o₁.getState key = o₂.getState key := congrFun (congrArg ObjectView.state hv) key
    show (o₁.setState key value).2.view db = (o₂.setState key value).2.view db
    unfold setState
    rw [hs]
    split_ifs
    · exact hv
    · show ({ o₁ with dirtyStorage := Function.update o₁.dirtyStorage key (some value) }).view db =
        ({ o₂ with dirtyStorage := Function.update o₂.dirtyStorage key (some value) }).view db
      rw [view_setDirty o₁, view_setDirty o₂, hv]
  deleted o := by
    show (o.setState key value).2.deleted = o.deleted
    unfold setState
    split_ifs <;> rfl

theorem viewRespecting_setStatePrivacyMetadata (db : Database) (pm : Option PrivacyMetadata) :
    ViewRespecting db (·.setStatePrivacyMetadata db pm) where
  view o₁ o₂ hv := by
    show (o₁.setStatePrivacyMetadata db pm).2.view db = (o₂.setStatePrivacyMetadata db pm).2.view db
    rw [view_setStatePrivacyMetadata, view_setStatePrivacyMetadata, hv]
  deleted _ := rfl

theorem viewRespecting_setManagedParties (db : Database) (managedParties : List (List Nat)) :
    ViewRespecting db fun o =>
      if 0 < managedParties.length then o.setManagedParties db managedParties else ([], o) := by
  split_ifs
  · refine ⟨fun o₁ o₂ hv => ?_, fun _ => rfl⟩
    rw [view_setManagedParties, view_setManagedParties, hv]
  · exact viewRespecting_nil db

end StateObject

namespace StateDB

/-! ## Every call reads only what `observe` sees -/

@[simp] theorem append_db (s : StateDB) (e : JournalEntry) : (s.append e).db = s.db := rfl

theorem same_append (s : StateDB) (e : JournalEntry) : Same (s.append e) s := rfl

theorem same_snapshot (s : StateDB) : Same s.snapshot.1 s := rfl

/-- Whatever `createObject` journals, it shows as the new object put under the address. -/
theorem same_createObject (s : StateDB) (addr : Address) :
    Same (s.createObject addr).1 (s.putObject addr (newObject addr zeroAccount)) := rfl

/-- The object `createObject` returns as replaced is the one `getStateObject` gives. -/
theorem createObject_prev (s : StateDB) (addr : Address) :
    (s.createObject addr).2.2 = s.getStateObject addr := by
  unfold createObject getStateObject
  cases s.getDeletedStateObject addr with
  | none => rfl
  | some p => cases hp : p.deleted <;> simp [Option.filter, hp]

theorem Same.createObject {s t : StateDB} (h : Same s t) (addr : Address) :
    Same (s.createObject addr).1 (t.createObject addr).1 :=
  (same_createObject s addr).trans
    ((h.putObject addr rfl rfl).trans (same_createObject t addr).symm)

theorem getOrNewStateObject_db (s : StateDB) (addr : Address) :
    (s.getOrNewStateObject addr).1.db = s.db := by
  unfold getOrNewStateObject
  split <;> rfl

/-- `GetOrNewStateObject` on two states that observe the same: states that still do, and objects
    that read alike. -/
theorem Same.getOrNewStateObject {s t : StateDB} (h : Same s t) (addr : Address) :
    Same (s.getOrNewStateObject addr).1 (t.getOrNewStateObject addr).1 ∧
      (s.getOrNewStateObject addr).2.view s.db = (t.getOrNewStateObject addr).2.view s.db ∧
      (s.getOrNewStateObject addr).2.deleted = (t.getOrNewStateObject addr).2.deleted := by
  have hrel := h.objectRel addr
  unfold StateDB.getOrNewStateObject
  generalize s.getStateObject addr = x at hrel ⊢
  generalize t.getStateObject addr = y at hrel ⊢
  cases hrel with
  | none => exact ⟨h.createObject addr, rfl, rfl⟩
  | some hv => exact ⟨h, hv.1, hv.2.1.trans hv.2.2.symm⟩

theorem Same.withObject {s t : StateDB} (h : Same s t) (addr : Address)
    {m : StateObject → List JournalEntry × StateObject} (hm : StateObject.ViewRespecting s.db m) :
    Same (s.withObject addr m) (t.withObject addr m) := by
  obtain ⟨h₁, hv, hdel⟩ := h.getOrNewStateObject addr
  unfold StateDB.withObject
  refine Same.putObject ((same_journal _ _).trans (h₁.trans (same_journal _ _).symm)) addr ?_ ?_
  · show (m _).2.view (s.getOrNewStateObject addr).1.db = (m _).2.view (s.getOrNewStateObject addr).1.db
    rw [getOrNewStateObject_db]
    exact hm.view _ _ hv
  · rw [hm.deleted, hm.deleted, hdel]

theorem Same.createAccount {s t : StateDB} (h : Same s t) (addr : Address) :
    Same (s.createAccount addr) (t.createAccount addr) := by
  have hrel := h.objectRel addr
  unfold StateDB.createAccount
  dsimp only
  rw [createObject_prev, createObject_prev]
  generalize s.getStateObject addr = x at hrel ⊢
  generalize t.getStateObject addr = y at hrel ⊢
  cases hrel with
  | none => exact h.createObject addr
  | @some o₁ o₂ hv =>
    -- the new account carries over the balance, which the view shows
    have hb : o₁.data.balance = o₂.data.balance := congrArg ObjectView.balance hv.1
    refine (h.createObject addr).putObject addr ?_ rfl
    rw [hb]
    rfl

theorem Same.suicide {s t : StateDB} (h : Same s t) (addr : Address) :
    Same (s.suicide addr).1 (t.suicide addr).1 := by
  have hrel := h.objectRel addr
  unfold StateDB.suicide
  generalize s.getStateObject addr = x at hrel ⊢
  generalize t.getStateObject addr = y at hrel ⊢
  cases hrel with
  | none => exact h
  | @some o₁ o₂ hv =>
    refine Same.putObject ((same_append s _).trans (h.trans (same_append t _).symm)) addr ?_ ?_
    · rw [StateObject.view_setSuicided o₁, StateObject.view_setSuicided o₂, append_db, hv.1]
    · simp only [hv.2.1, hv.2.2]

/-- Every call takes states that observe the same to such states, or panics on both. -/
theorem Call.apply_same (keccak : List Nat → Hash) (c : Call) {s t : StateDB} (h : Same s t) :
    Option.Rel Same (c.apply keccak s) (c.apply keccak t) := by
  cases c with
  | createAccount addr => exact .some (h.createAccount addr)
  | addBalance addr amount =>
    exact .some (h.withObject addr (StateObject.viewRespecting_addBalance _ amount))
  | subBalance addr amount =>
    exact .some (h.withObject addr (StateObject.viewRespecting_subBalance _ amount))
  | setBalance addr amount =>
    exact .some (h.withObject addr (StateObject.viewRespecting_setBalance _ amount))
  | setNonce addr nonce =>
    exact .some (h.withObject addr (StateObject.viewRespecting_setNonce _ nonce))
  | setPrivacyMetadata addr metadata =>
    refine .some ?_
    show Same (s.withObject addr (·.setStatePrivacyMetadata s.db metadata))
      (t.withObject addr (·.setStatePrivacyMetadata t.db metadata))
    rw [← h.db]
    exact h.withObject addr (StateObject.viewRespecting_setStatePrivacyMetadata _ metadata)
  | setManagedParties addr managedParties =>
    refine .some ?_
    show Same (s.withObject addr fun o => if 0 < managedParties.length then
        o.setManagedParties s.db managedParties else ([], o))
      (t.withObject addr fun o => if 0 < managedParties.length then
        o.setManagedParties t.db managedParties else ([], o))
    rw [← h.db]
    exact h.withObject addr (StateObject.viewRespecting_setManagedParties _ managedParties)
  | setCode addr code =>
    refine .some ?_
    show Same (s.withObject addr (·.setCode s.db (keccak code) code))
      (t.withObject addr (·.setCode t.db (keccak code) code))
    rw [← h.db]
    exact h.withObject addr (StateObject.viewRespecting_setCode _ (keccak code) code)
  | setState addr key value =>
    exact .some (h.withObject addr (StateObject.viewRespecting_setState _ key value))
  | suicide addr => exact .some (h.suicide addr)
  | addRefund gas => exact .some (h.congr (fun o => { o with refund := o.refund + gas }) rfl rfl)
  | subRefund gas =>
    have hr : t.refund = s.refund := (congrArg Observation.refund h).symm
    simp only [Call.apply, subRefund, hr]
    split_ifs
    · exact .none
    · exact .some (h.congr (fun o => { o with refund := s.refund - gas }) rfl rfl)
  | addLog log =>
    exact .some (h.congr (fun o => { o with
      logs := Function.update o.logs o.thash (o.logs o.thash ++
        [{ log with txHash := o.thash, blockHash := o.bhash, txIndex := o.txIndex,
                    index := o.logSize }])
      logSize := o.logSize + 1 }) rfl rfl)
  | addPreimage hash preimage =>
    have hp : t.preimages = s.preimages := (congrArg Observation.preimages h).symm
    refine .some ?_
    show Same (s.addPreimage hash preimage) (t.addPreimage hash preimage)
    unfold addPreimage
    rw [hp]
    cases s.preimages hash with
    | some _ => exact h
    | none =>
      exact h.congr (fun o => { o with preimages := Function.update s.preimages hash (some preimage) })
        rfl rfl
  | addAddressToAccessList addr =>
    refine .some ?_
    show Same (s.addAddressToAccessList addr) (t.addAddressToAccessList addr)
    unfold addAddressToAccessList
    rw [← h.accessList]
    split_ifs
    · exact h.congr (fun o => { o with accessList := (s.accessList.addAddress addr).1 }) rfl rfl
    · exact h
  | addSlotToAccessList addr slot =>
    simp only [Call.apply, addSlotToAccessList, ← h.accessList]
    cases s.accessList.addSlot addr slot with
    | none => exact .none
    | some r =>
      simp only [Option.map_some]
      refine .some ?_
      -- the entries journaled for the address and the slot are not observed
      split_ifs <;> exact h.congr (fun o => { o with accessList := r.1 }) rfl rfl

/-! ## The calls no revert undid -/

/-- What a run keeps of its calls, action by action: the calls kept so far, for each valid revision
    its id and the calls kept when its `Snapshot` was taken, and the id the next `Snapshot`
    returns. -/
structure Kept where
  calls : List Call
  marks : List (Int × List Call)
  next : Int

/-- One action: a call is kept; a `Snapshot` marks the calls kept so far under its id; a revert to
    a marked id goes back to the calls of its mark and drops the marks from it on (a revert to an
    unmarked id is where the run panics). -/
def Kept.step (k : Kept) : Action → Kept
  | .call c => { k with calls := k.calls ++ [c] }
  | .snapshot => { k with marks := k.marks ++ [(k.next, k.calls)], next := k.next + 1 }
  | .revertToSnapshot revid =>
    match k.marks.find? fun m => m.1 = revid with
    | some m => { k with calls := m.2, marks := k.marks.filter fun m => m.1 < revid }
    | none => k

/-- What a run keeps, its first `Snapshot` returning `next`. -/
def Kept.ofActions (next : Int) (acts : List Action) : Kept := acts.foldl Kept.step ⟨[], [], next⟩

/-- The calls of a run that no revert undid, in order. -/
def keptCalls (next : Int) (acts : List Action) : List Call := (Kept.ofActions next acts).calls

example : keptCalls 0 [.call (.setNonce 1 2), .snapshot, .call (.setBalance 1 5),
    .call (.addRefund 3), .revertToSnapshot 0, .call (.setState 1 4 9)] =
    [.setNonce 1 2, .setState 1 4 9] := rfl

@[simp] theorem Kept.ofActions_nil (next : Int) : Kept.ofActions next [] = ⟨[], [], next⟩ := rfl

@[simp] theorem Kept.ofActions_append_singleton (next : Int) (acts : List Action) (a : Action) :
    Kept.ofActions next (acts ++ [a]) = (Kept.ofActions next acts).step a := by
  simp [Kept.ofActions, List.foldl_append]

/-- The kept calls are calls of the run, in its order. -/
theorem keptCalls_sublist (next : Int) :
    ∀ acts : List Action, ((keptCalls next acts).map Action.call).Sublist acts ∧
      ∀ m ∈ (Kept.ofActions next acts).marks, (m.2.map Action.call).Sublist acts := by
  intro acts
  induction acts using List.reverseRecOn with
  | nil => exact ⟨List.Sublist.slnil, fun m hm => by cases hm⟩
  | append_singleton acts a ih =>
    obtain ⟨hcalls, hmarks⟩ := ih
    have hext : ∀ l : List Call, (l.map Action.call).Sublist acts →
        (l.map Action.call).Sublist (acts ++ [a]) :=
      fun l hl => hl.trans (List.sublist_append_left _ _)
    unfold keptCalls at hcalls ⊢
    rw [Kept.ofActions_append_singleton]
    cases a with
    | call c =>
      refine ⟨?_, fun m hm => hext m.2 (hmarks m hm)⟩
      rw [Kept.step, List.map_append]
      exact hcalls.append (List.Sublist.refl _)
    | snapshot =>
      refine ⟨hext _ hcalls, fun m hm => ?_⟩
      simp only [Kept.step] at hm
      rcases List.mem_append.mp hm with hm | hm
      · exact hext m.2 (hmarks m hm)
      · rw [List.mem_singleton.mp hm]
        exact hext _ hcalls
    | revertToSnapshot revid =>
      cases hfind : (Kept.ofActions next acts).marks.find? fun m => m.1 = revid with
      | some m =>
        simp only [Kept.step, hfind]
        exact ⟨hext m.2 (hmarks m (List.mem_of_find?_eq_some hfind)),
          fun m' hm' => hext m'.2 (hmarks m' (List.mem_filter.mp hm').1)⟩
      | none =>
        simp only [Kept.step, hfind]
        exact ⟨hext _ hcalls, fun m hm => hext m.2 (hmarks m hm)⟩

/-- How what a run keeps follows the run: the next id and the marked ids are the state's, and each
    mark was made by a `Snapshot` of the run, from the state its prefix reached and with the calls
    that prefix kept. -/
structure Kept.Tracks (keccak : List Nat → Hash) (s₀ : StateDB) (acts : List Action)
    (t : StateDB) : Prop where
  next : (Kept.ofActions s₀.nextRevisionId acts).next = t.nextRevisionId
  ids : (Kept.ofActions s₀.nextRevisionId acts).marks.map Prod.fst = t.validRevisions.map Revision.id
  marks : ∀ m ∈ (Kept.ofActions s₀.nextRevisionId acts).marks, ∃ pre post v,
    acts = pre ++ .snapshot :: post ∧ run keccak pre s₀ = some v ∧ v.nextRevisionId = m.1 ∧
      (Kept.ofActions s₀.nextRevisionId pre).calls = m.2

/-- A mark made before an action is still made by a `Snapshot` of the longer run. -/
theorem Kept.Tracks.extend {keccak : List Nat → Hash} {s₀ t : StateDB} {acts : List Action}
    (h : Kept.Tracks keccak s₀ acts t) (a : Action) {m : Int × List Call}
    (hm : m ∈ (Kept.ofActions s₀.nextRevisionId acts).marks) :
    ∃ pre post v, acts ++ [a] = pre ++ .snapshot :: post ∧ run keccak pre s₀ = some v ∧
      v.nextRevisionId = m.1 ∧ (Kept.ofActions s₀.nextRevisionId pre).calls = m.2 := by
  obtain ⟨pre, post, v, hacts, hv, hid, hcalls⟩ := h.marks m hm
  exact ⟨pre, post ++ [a], v, by rw [hacts]; simp, hv, hid, hcalls⟩

/-- What a run keeps tracks the run's state at every step. -/
theorem kept_tracks (keccak : List Nat → Hash) {s₀ : StateDB} (hwf : s₀.WF)
    (hfresh : s₀.validRevisions = []) :
    ∀ (acts : List Action) {t : StateDB}, run keccak acts s₀ = some t →
      Kept.Tracks keccak s₀ acts t := by
  intro acts
  induction acts using List.reverseRecOn with
  | nil =>
    intro t h
    cases h
    exact ⟨rfl, by simp [hfresh], fun m hm => by cases hm⟩
  | append_singleton acts a ih =>
    intro t' h
    rw [run_append] at h
    obtain ⟨t, hrun, ha⟩ := Option.bind_eq_some_iff.mp h
    have htr := ih hrun
    have hwft := (tracked_of_run keccak hwf hfresh acts hrun).1
    cases a with
    | call c =>
      obtain ⟨es, hc⟩ := Call.apply_change keccak hwft.keyed hwft.accessList ha
      refine ⟨?_, ?_, fun m hm => ?_⟩
      · rw [Kept.ofActions_append_singleton, hc.nextRevisionId]
        exact htr.next
      · rw [Kept.ofActions_append_singleton, hc.validRevisions]
        exact htr.ids
      · rw [Kept.ofActions_append_singleton] at hm
        exact htr.extend _ hm
    | snapshot =>
      cases ha
      refine ⟨?_, ?_, fun m hm => ?_⟩
      · simp only [Kept.ofActions_append_singleton, Kept.step, StateDB.snapshot, htr.next]
      · simp only [Kept.ofActions_append_singleton, Kept.step, StateDB.snapshot, List.map_append,
          List.map_singleton, htr.ids, htr.next]
      · simp only [Kept.ofActions_append_singleton, Kept.step, List.mem_append,
          List.mem_singleton] at hm
        rcases hm with hm | rfl
        · exact htr.extend _ hm
        · -- the new mark: this `Snapshot`, from the state the run had reached
          exact ⟨acts, [], t, rfl, hrun, htr.next.symm, rfl⟩
    | revertToSnapshot revid =>
      obtain ⟨rev, w, hi, hid, hw, rfl⟩ := revertToSnapshot_eq_some ha
      obtain ⟨-, hnext⟩ := undoAll_keyed hwft.keyed hw
      -- the revision reverted to is marked
      have hmarked : revid ∈ (Kept.ofActions s₀.nextRevisionId acts).marks.map Prod.fst := by
        rw [htr.ids, ← hid]
        exact List.mem_map_of_mem (List.mem_of_getElem? hi)
      obtain ⟨m, hfind⟩ : ∃ m, (Kept.ofActions s₀.nextRevisionId acts).marks.find?
          (fun m => m.1 = revid) = some m := by
        obtain ⟨m, hm, hm1⟩ := List.mem_map.mp hmarked
        exact Option.isSome_iff_exists.mp (List.find?_isSome.mpr ⟨m, hm, by simpa using hm1⟩)
      have hnext' : ((Kept.ofActions s₀.nextRevisionId acts).step (.revertToSnapshot revid)).next =
          (Kept.ofActions s₀.nextRevisionId acts).next := by
        simp only [Kept.step, hfind]
      have hmarks : ((Kept.ofActions s₀.nextRevisionId acts).step (.revertToSnapshot revid)).marks =
          (Kept.ofActions s₀.nextRevisionId acts).marks.filter (fun m => m.1 < revid) := by
        simp only [Kept.step, hfind]
      refine ⟨?_, ?_, fun m' hm' => ?_⟩
      · rw [Kept.ofActions_append_singleton, hnext']
        exact htr.next.trans hnext.symm
      · -- both keep the revisions below `revid`
        have hcomm : ∀ {β : Type} (l : List β) (f : β → Int),
            (l.filter fun x => decide (f x < revid)).map f = (l.map f).filter fun i => i < revid :=
          fun l f => by rw [List.filter_map]; rfl
        rw [Kept.ofActions_append_singleton, hmarks]
        show _ = ((t.validRevisions.take (t.revisionIndex revid)).map Revision.id)
        rw [take_eq_filter_of_pairwise hwft.revisions.ids hi, hid, hcomm _ Prod.fst,
          hcomm _ Revision.id, htr.ids]
      · rw [Kept.ofActions_append_singleton, hmarks] at hm'
        exact htr.extend _ (List.mem_filter.mp hm').1

/-- Each `Snapshot` of a run returns a larger id than every earlier one, reverts in between or
    not. -/
theorem nextRevisionId_lt_of_snapshot (keccak : List Nat → Hash) {s₀ v₁ v₂ : StateDB}
    (hwf : s₀.WF) (hfresh : s₀.validRevisions = []) {pre mid : List Action}
    (h₁ : run keccak pre s₀ = some v₁) (h₂ : run keccak (pre ++ .snapshot :: mid) s₀ = some v₂) :
    v₁.nextRevisionId < v₂.nextRevisionId := by
  have hsnap : run keccak (pre ++ [.snapshot]) s₀ = some v₁.snapshot.1 := by
    rw [run_append, h₁]
    rfl
  have hle := run_extend_revisions keccak hwf hfresh
    (fun t => v₁.nextRevisionId + 1 ≤ t.nextRevisionId)
    (fun _ _ _ hp _ hnext => le_trans hp hnext) mid hsnap (le_refl _)
    (by rwa [List.append_assoc, List.singleton_append])
  omega

/-- Two `Snapshot`s of a run that returned one id are the same `Snapshot`. -/
theorem snapshot_split_unique (keccak : List Nat → Hash) {s₀ v₁ v₂ : StateDB} (hwf : s₀.WF)
    (hfresh : s₀.validRevisions = []) {pre₁ post₁ pre₂ post₂ : List Action}
    (h : pre₁ ++ .snapshot :: post₁ = pre₂ ++ .snapshot :: post₂)
    (h₁ : run keccak pre₁ s₀ = some v₁) (h₂ : run keccak pre₂ s₀ = some v₂)
    (hid : v₁.nextRevisionId = v₂.nextRevisionId) : pre₁ = pre₂ := by
  rcases List.append_eq_append_iff.mp h with ⟨a', rfl, hb⟩ | ⟨c', rfl, hd⟩
  · cases a' with
    | nil => exact (List.append_nil pre₁).symm
    | cons x mid =>
      -- a later `Snapshot` of the same id
      obtain ⟨rfl, -⟩ := List.cons_eq_cons.mp hb
      have := nextRevisionId_lt_of_snapshot keccak hwf hfresh h₁ h₂
      omega
  · cases c' with
    | nil => exact List.append_nil pre₂
    | cons x mid =>
      obtain ⟨rfl, -⟩ := List.cons_eq_cons.mp hd
      have := nextRevisionId_lt_of_snapshot keccak hwf hfresh h₂ h₁
      omega

/-- A revert from a state a run reached gives back a state that observes as the one the run was
    in when the revision was taken, by the `Snapshot` that returned its id. -/
theorem revertToSnapshot_same_recorded (keccak : List Nat → Hash) {s₀ t r : StateDB}
    (hwf : s₀.WF) (hfresh : s₀.validRevisions = []) {acts : List Action}
    (hrun : run keccak acts s₀ = some t) {revid : Int} (h : t.revertToSnapshot revid = some r) :
    ∃ pre post v, acts = pre ++ .snapshot :: post ∧ run keccak pre s₀ = some v ∧
      v.nextRevisionId = revid ∧ Same r v := by
  obtain ⟨-, hrec⟩ := tracked_of_run keccak hwf hfresh acts hrun
  obtain ⟨rev, w, hi, hid, hw, rfl⟩ := revertToSnapshot_eq_some h
  obtain ⟨v, hv⟩ := hrec rev (List.mem_of_getElem? hi)
  obtain ⟨pre, post, hacts, hpre⟩ := hv.split
  obtain ⟨u, hu, hsame⟩ := hv.back.undoAll_eq same_equivalence revert_respects
  rw [hw, Option.some_inj] at hu
  subst hu
  exact ⟨pre, post, v, hacts, hpre, hv.id.trans hid, hsame⟩

/-- The calls that no revert of a run undid, run alone with no snapshot, reach a state that
    observes as the run's last; they are calls of the run, in its order. -/
theorem run_refines_calls (keccak : List Nat → Hash) {s₀ : StateDB} (hwf : s₀.WF)
    (hfresh : s₀.validRevisions = []) {acts : List Action} {t : StateDB}
    (hrun : run keccak acts s₀ = some t) :
    ((keptCalls s₀.nextRevisionId acts).map Action.call).Sublist acts ∧
      ∃ u, run keccak ((keptCalls s₀.nextRevisionId acts).map Action.call) s₀ = some u ∧
        Same u t := by
  refine ⟨(keptCalls_sublist _ acts).1, ?_⟩
  -- strong induction on the run's length: a revert goes back to the calls of a shorter run
  induction hn : acts.length using Nat.strong_induction_on generalizing acts t with
  | _ n ih =>
    rcases List.eq_nil_or_concat acts with rfl | ⟨acts', a, rfl⟩
    · cases hrun
      exact ⟨s₀, rfl, rfl⟩
    rw [List.concat_eq_append] at hrun hn ⊢
    rw [run_append] at hrun
    obtain ⟨t', hrun', ha⟩ := Option.bind_eq_some_iff.mp hrun
    have hlt : acts'.length < n := by simp [← hn]
    obtain ⟨u, hu, hsame⟩ := ih _ hlt hrun' rfl
    unfold keptCalls at hu ⊢
    rw [Kept.ofActions_append_singleton]
    cases a with
    | call c =>
      -- the call made from the call-only state leaves a state that observes the same
      have hrel := Call.apply_same keccak c hsame
      rw [show Action.apply keccak (.call c) t' = c.apply keccak t' from rfl] at ha
      rw [ha] at hrel
      cases hu' : c.apply keccak u with
      | none =>
        rw [hu'] at hrel
        cases hrel
      | some u' =>
        rw [hu', Option.rel_some_some] at hrel
        refine ⟨u', ?_, hrel⟩
        rw [Kept.step, List.map_append, List.map_singleton, run_append, hu]
        exact hu'
    | snapshot =>
      cases ha
      exact ⟨u, hu, hsame.trans (same_snapshot t').symm⟩
    | revertToSnapshot revid =>
      -- the state reverted to is the one the run was in at the `Snapshot` of `revid`
      obtain ⟨pre₁, post₁, v₁, hacts₁, hpre₁, hid₁, hsame₁⟩ :=
        revertToSnapshot_same_recorded keccak hwf hfresh hrun' ha
      have htr := kept_tracks keccak hwf hfresh acts' hrun'
      obtain ⟨m, hfind⟩ : ∃ m, (Kept.ofActions s₀.nextRevisionId acts').marks.find?
          (fun m => m.1 = revid) = some m := by
        obtain ⟨rev, w, hi, hid, -, -⟩ := revertToSnapshot_eq_some ha
        have hmarked : revid ∈ (Kept.ofActions s₀.nextRevisionId acts').marks.map Prod.fst := by
          rw [htr.ids, ← hid]
          exact List.mem_map_of_mem (List.mem_of_getElem? hi)
        obtain ⟨m, hm, hm1⟩ := List.mem_map.mp hmarked
        exact Option.isSome_iff_exists.mp (List.find?_isSome.mpr ⟨m, hm, by simpa using hm1⟩)
      have hm1 : m.1 = revid := by simpa using List.find?_some hfind
      -- its mark was made by that same `Snapshot`, with the calls its prefix kept
      obtain ⟨pre₂, post₂, v₂, hacts₂, hpre₂, hid₂, hcalls⟩ :=
        htr.marks m (List.mem_of_find?_eq_some hfind)
      obtain rfl := snapshot_split_unique keccak hwf hfresh (hacts₁.symm.trans hacts₂) hpre₁ hpre₂
        (hid₁.trans (hm1.symm.trans hid₂.symm))
      obtain rfl : v₁ = v₂ := Option.some_inj.mp (hpre₁.symm.trans hpre₂)
      have hlt' : pre₁.length < n := by
        rw [← hn, hacts₁]
        simp
      obtain ⟨u₁, hu₁, hsame'⟩ := ih _ hlt' hpre₁ rfl
      simp only [Kept.step, hfind]
      rw [← hcalls]
      exact ⟨u₁, hu₁, hsame'.trans hsame₁.symm⟩

/-- A run whose revert undoes a balance write and a refund: its last state observes as the one
    the calls left in place reach. -/
theorem run_refines_calls_after_revert : ∃ t,
    run (fun _ => 0) [.call (.setNonce 1 2), .snapshot, .call (.setBalance 1 5),
        .call (.addRefund 3), .revertToSnapshot 0, .call (.setState 1 4 9)]
      (new ⟨fun _ => none, fun _ => none, fun _ => []⟩) = some t ∧
    ((keptCalls (new ⟨fun _ => none, fun _ => none, fun _ => []⟩).nextRevisionId
        [.call (.setNonce 1 2), .snapshot, .call (.setBalance 1 5), .call (.addRefund 3),
          .revertToSnapshot 0, .call (.setState 1 4 9)]).map Action.call).Sublist
      [.call (.setNonce 1 2), .snapshot, .call (.setBalance 1 5), .call (.addRefund 3),
        .revertToSnapshot 0, .call (.setState 1 4 9)] ∧
    ∃ u, run (fun _ => 0) ((keptCalls (new ⟨fun _ => none, fun _ => none, fun _ => []⟩).nextRevisionId
        [.call (.setNonce 1 2), .snapshot, .call (.setBalance 1 5), .call (.addRefund 3),
          .revertToSnapshot 0, .call (.setState 1 4 9)]).map Action.call)
        (new ⟨fun _ => none, fun _ => none, fun _ => []⟩) = some u ∧ Same u t :=
  ⟨_, rfl, run_refines_calls _ (wf_new _) rfl rfl⟩

end StateDB

end QuorumHotstuff.State
