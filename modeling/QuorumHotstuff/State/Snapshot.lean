import QuorumHotstuff.State.Undo

/-!
# Snapshot and RevertToSnapshot over whole runs

A run of the interface's mutations, `Snapshot`s and `RevertToSnapshot`s from a well-formed state
with no revisions keeps an invariant (`tracked_of_run`): the state is well formed, and every valid
revision was recorded by a `Snapshot` of the run, from a state that the journal entries after the
revision's index lead back to, up to what the accessors see.  A mutation adds its entries, which
undo it (`Call.apply_change`); a `Snapshot` adds a revision at the journal's end; a revert to a
revision undoes the entries after it, and the earlier revisions still lead back from there, the
entries after them being the ones before the revision's index.

So every revision a run leaves valid can be reverted to, and gives back what the accessors read
when its `Snapshot` was taken (`revertToSnapshot_restores`).
-/

namespace QuorumHotstuff.State

open QuorumHotstuff.Hotstuff (Address Hash)
open QuorumHotstuff.Lib

namespace StateDB

/-- The revisions `Snapshot` recorded: ids increasing and below the next one, journal indices
    nondecreasing and within the journal. -/
structure RevisionsWF (s : StateDB) : Prop where
  ids : (s.validRevisions.map Revision.id).Pairwise (· < ·)
  below : ∀ rev ∈ s.validRevisions, rev.id < s.nextRevisionId
  indices : (s.validRevisions.map Revision.journalIndex).Pairwise (· ≤ ·)
  within : ∀ rev ∈ s.validRevisions, rev.journalIndex ≤ s.journal.length

/-- What every state of a run keeps. -/
structure WF (s : StateDB) : Prop where
  keyed : s.Keyed
  accessList : s.accessList.WF
  revisions : s.RevisionsWF

theorem wf_new (db : Database) : (StateDB.new db).WF :=
  ⟨(fun _ _ h => by cases h), AccessList.wf_newAccessList,
    ⟨List.Pairwise.nil, (fun _ h => by cases h), List.Pairwise.nil, (fun _ h => by cases h)⟩⟩

/-! ## Finding a revision -/

/-- With increasing ids, `sort.Search` finds a valid revision's own index. -/
theorem revisionIndex_eq {s : StateDB} (hids : (s.validRevisions.map Revision.id).Pairwise (· < ·))
    {i : Nat} {rev : Revision} (hi : s.validRevisions[i]? = some rev) :
    s.revisionIndex rev.id = i := by
  have hlt : ∀ a b, a < b → b < s.validRevisions.length →
      (s.validRevisions.getD a ⟨0, 0⟩).id < (s.validRevisions.getD b ⟨0, 0⟩).id := by
    intro a b hab hb
    have hpw := List.pairwise_iff_getElem.mp hids a b (by simpa using (hab.trans hb))
      (by simpa using hb) hab
    simp only [List.getElem_map] at hpw
    rwa [List.getD_eq_getElem?_getD, List.getElem?_eq_getElem (hab.trans hb), Option.getD_some,
      List.getD_eq_getElem?_getD, List.getElem?_eq_getElem hb, Option.getD_some]
  have hup : Upward (fun k => decide (rev.id ≤ (s.validRevisions.getD k ⟨0, 0⟩).id))
      s.validRevisions.length := by
    intro a b hab hb ha
    simp only [decide_eq_true_eq] at ha ⊢
    rcases Nat.lt_or_eq_of_le hab with h | rfl
    · exact le_trans ha (le_of_lt (hlt a b h hb))
    · exact ha
  obtain ⟨hle, hbelow, habove⟩ := search_spec hup
  have hilen : i < s.validRevisions.length := (List.getElem?_eq_some_iff.mp hi).1
  have hgeti : s.validRevisions.getD i ⟨0, 0⟩ = rev := by
    rw [List.getD_eq_getElem?_getD, hi, Option.getD_some]
  unfold revisionIndex
  rcases Nat.lt_trichotomy (search s.validRevisions.length
    fun k => decide (rev.id ≤ (s.validRevisions.getD k ⟨0, 0⟩).id)) i with h | h | h
  · -- the search stopped below `i`, at a revision with an id at least `rev.id` but below it
    have hfound := habove _ (Nat.le_refl _) (h.trans hilen)
    have := hlt _ i h hilen
    rw [hgeti] at this
    simp only [decide_eq_true_eq] at hfound
    omega
  · exact h
  · -- the search passed `i`, where the predicate holds
    have := hbelow i h
    rw [hgeti] at this
    simp at this

/-- What `RevertToSnapshot` does when it does not panic. -/
theorem revertToSnapshot_eq_some {s s' : StateDB} {revid : Int}
    (h : s.revertToSnapshot revid = some s') :
    ∃ rev w, s.validRevisions[s.revisionIndex revid]? = some rev ∧ rev.id = revid ∧
      undoAll JournalEntry.revert (s.journal.drop rev.journalIndex) s = some w ∧
      s' = { w with journal := s.journal.take rev.journalIndex,
                    validRevisions := s.validRevisions.take (s.revisionIndex revid) } := by
  unfold revertToSnapshot at h
  split at h
  · cases h
  · rename_i rev hrev
    split_ifs at h with hid
    obtain ⟨w', hw', rfl⟩ := Option.map_eq_some_iff.mp h
    obtain ⟨w, hw, rfl⟩ := Option.map_eq_some_iff.mp hw'
    exact ⟨rev, w, hrev, not_not.mp hid, hw, rfl⟩

/-! ## What the reverts keep -/

theorem Keyed.modifyObject {s s' : StateDB} (hk : s.Keyed) {a : Address}
    {f : StateObject → StateObject} (hf : ∀ o, (f o).address = o.address)
    (h : s.modifyObject a f = some s') : s'.Keyed := by
  obtain ⟨o, ho, rfl⟩ := Option.map_eq_some_iff.mp h
  exact hk.putObject ((hf o).trans (hk.getStateObject ho))

/-- A revert keeps live objects under their addresses and leaves the next revision id. -/
theorem revert_keyed {e : JournalEntry} {s s' : StateDB} (hk : s.Keyed)
    (h : e.revert s = some s') : s'.Keyed ∧ s'.nextRevisionId = s.nextRevisionId := by
  have hmod : ∀ {a : Address} {f : StateObject → StateObject}, s.modifyObject a f = some s' →
      (∀ o, (f o).address = o.address) → s'.Keyed ∧ s'.nextRevisionId = s.nextRevisionId :=
    fun hm hf => ⟨hk.modifyObject hf hm, by
      obtain ⟨o, -, rfl⟩ := Option.map_eq_some_iff.mp hm
      rfl⟩
  cases e with
  | createObjectChange account =>
    cases h
    refine ⟨fun b p hb => ?_, rfl⟩
    by_cases hba : b = account
    · subst hba
      simp at hb
    · exact hk b p (by simpa [Function.update_of_ne hba] using hb)
  | resetObjectChange prev =>
    cases h
    exact ⟨hk.putObject rfl, rfl⟩
  | suicideChange account prev prevbalance =>
    cases hs : s.getStateObject account with
    | some obj =>
      simp only [JournalEntry.revert, hs, Option.some.injEq] at h
      subst h
      have haddr := hk.getStateObject hs
      exact ⟨hk.putObject haddr, rfl⟩
    | none =>
      simp only [JournalEntry.revert, hs, Option.some.injEq] at h
      subst h
      exact ⟨hk, rfl⟩
  | balanceChange =>
    simp only [JournalEntry.revert] at h
    exact hmod h (fun _ => rfl)
  | nonceChange =>
    simp only [JournalEntry.revert] at h
    exact hmod h (fun _ => rfl)
  | storageChange =>
    simp only [JournalEntry.revert] at h
    exact hmod h (fun _ => rfl)
  | codeChange =>
    simp only [JournalEntry.revert] at h
    exact hmod h (fun _ => rfl)
  | accountExtraDataChange =>
    simp only [JournalEntry.revert] at h
    exact hmod h (fun _ => rfl)
  | refundChange => cases h; exact ⟨hk, rfl⟩
  | addLogChange txhash =>
    simp only [JournalEntry.revert] at h
    split at h <;> cases h <;> exact ⟨hk, rfl⟩
  | addPreimageChange => cases h; exact ⟨hk, rfl⟩
  | touchChange => cases h; exact ⟨hk, rfl⟩
  | accessListAddAccountChange => cases h; exact ⟨hk, rfl⟩
  | accessListAddSlotChange =>
    obtain ⟨al, -, rfl⟩ := Option.map_eq_some_iff.mp h
    exact ⟨hk, rfl⟩

theorem undoAll_keyed {s s' : StateDB} (hk : s.Keyed) :
    ∀ {es : List JournalEntry}, undoAll JournalEntry.revert es s = some s' →
      s'.Keyed ∧ s'.nextRevisionId = s.nextRevisionId
  | [], h => by
    cases h
    exact ⟨hk, rfl⟩
  | e :: es, h => by
    rw [undoAll_cons] at h
    obtain ⟨u, hu, he⟩ := Option.bind_eq_some_iff.mp h
    obtain ⟨hku, hnu⟩ := undoAll_keyed hk hu
    obtain ⟨hk', hn'⟩ := revert_keyed hku he
    exact ⟨hk', hn'.trans hnu⟩

/-! ## The revisions over a run -/

theorem RevisionsWF.snapshot {s : StateDB} (h : s.RevisionsWF) : s.snapshot.1.RevisionsWF where
  ids := by
    simp only [StateDB.snapshot, List.map_append, List.map_cons, List.map_nil]
    refine List.pairwise_append.mpr ⟨h.ids, List.pairwise_singleton _ _, fun a ha b hb => ?_⟩
    obtain ⟨rev, hrev, rfl⟩ := List.mem_map.mp ha
    rw [List.mem_singleton.mp hb]
    exact h.below rev hrev
  below rev hrev := by
    simp only [StateDB.snapshot, List.mem_append, List.mem_singleton] at hrev ⊢
    rcases hrev with hrev | rfl
    · have := h.below rev hrev
      omega
    · simp
  indices := by
    simp only [StateDB.snapshot, List.map_append, List.map_cons, List.map_nil]
    refine List.pairwise_append.mpr ⟨h.indices, List.pairwise_singleton _ _, fun a ha b hb => ?_⟩
    obtain ⟨rev, hrev, rfl⟩ := List.mem_map.mp ha
    rw [List.mem_singleton.mp hb]
    exact h.within rev hrev
  within rev hrev := by
    simp only [StateDB.snapshot, List.mem_append, List.mem_singleton] at hrev ⊢
    rcases hrev with hrev | rfl
    · exact h.within rev hrev
    · exact Nat.le_refl _

/-- The revisions before the one at index `i` have journal indices at most its. -/
theorem RevisionsWF.journalIndex_le {s : StateDB} (h : s.RevisionsWF) {i : Nat} {rev' : Revision}
    (hi : s.validRevisions[i]? = some rev') {rev : Revision} (hrev : rev ∈ s.validRevisions.take i) :
    rev.journalIndex ≤ rev'.journalIndex := by
  obtain ⟨k, hk, rfl⟩ := List.mem_take_iff_getElem.mp hrev
  obtain ⟨hilen, rfl⟩ := List.getElem?_eq_some_iff.mp hi
  have hpw := List.pairwise_iff_getElem.mp h.indices k i (by simpa using (lt_min_iff.mp hk).2)
    (by simpa using hilen) (lt_min_iff.mp hk).1
  simpa using hpw

/-! ## Runs -/

theorem run_append (keccak : List Nat → Hash) (acts : List Action) (a : Action) (s : StateDB) :
    run keccak (acts ++ [a]) s = (run keccak acts s).bind (a.apply keccak) := by
  induction acts generalizing s with
  | nil => simp [run]
  | cons b acts ih => simp only [List.cons_append, run, ih, Option.bind_assoc]

theorem run_append_bind (keccak : List Nat → Hash) (acts acts' : List Action) (s : StateDB) :
    run keccak (acts ++ acts') s = (run keccak acts s).bind (run keccak acts') := by
  induction acts generalizing s with
  | nil => simp [run]
  | cons b acts ih => simp only [List.cons_append, run, ih, Option.bind_assoc]

/-- A revision of `t` that a `Snapshot` of the run `acts` from `s₀` recorded at the state `v`:
    `v`'s journal is `t`'s cut at the revision's index, and the entries after it take `t` back
    to `v`. -/
structure Recorded (keccak : List Nat → Hash) (s₀ : StateDB) (acts : List Action) (t : StateDB)
    (rev : Revision) (v : StateDB) : Prop where
  split : ∃ pre post, acts = pre ++ .snapshot :: post ∧ run keccak pre s₀ = some v
  wf : v.WF
  id : v.nextRevisionId = rev.id
  journal : v.journal = t.journal.take rev.journalIndex
  back : Journaled JournalEntry.revert Same v t (t.journal.drop rev.journalIndex)

/-- The invariant of a run `acts` from `s₀` that reached `t`. -/
def Tracked (keccak : List Nat → Hash) (s₀ : StateDB) (acts : List Action) (t : StateDB) : Prop :=
  t.WF ∧ ∀ rev ∈ t.validRevisions, ∃ v, Recorded keccak s₀ acts t rev v

theorem Recorded.extend {keccak : List Nat → Hash} {s₀ t : StateDB} {acts : List Action}
    {rev : Revision} {v : StateDB} (h : Recorded keccak s₀ acts t rev v) (a : Action) :
    ∃ pre post, acts ++ [a] = pre ++ .snapshot :: post ∧ run keccak pre s₀ = some v := by
  obtain ⟨pre, post, hacts, hrun⟩ := h.split
  exact ⟨pre, post ++ [a], by rw [hacts]; simp, hrun⟩

/-- A mutation adds its entries to those that lead back to each revision's state. -/
theorem Recorded.call {keccak : List Nat → Hash} {s₀ t t' : StateDB} {acts : List Action}
    {rev : Revision} {v : StateDB} (h : Recorded keccak s₀ acts t rev v)
    (hle : rev.journalIndex ≤ t.journal.length) {es : List JournalEntry} (hc : Change t t' es)
    (c : Call) : Recorded keccak s₀ (acts ++ [.call c]) t' rev v where
  split := h.extend _
  wf := h.wf
  id := h.id
  journal := by rw [hc.journal, List.take_append_of_le_length hle, h.journal]
  back := by
    rw [hc.journal, List.drop_append_of_le_length hle]
    exact h.back.step hc.undoes

/-- A state the accessors cannot tell from a run's last state, with the same entries to undo. -/
theorem Journaled.same {v t t' : StateDB} {es : List JournalEntry}
    (h : Journaled JournalEntry.revert Same v t es) (ht : Same t' t) :
    Journaled JournalEntry.revert Same v t' es := by
  have := h.step ⟨t', undoAll_nil JournalEntry.revert t', ht⟩
  rwa [List.append_nil] at this

theorem Recorded.snapshot {keccak : List Nat → Hash} {s₀ t : StateDB} {acts : List Action}
    {rev : Revision} {v : StateDB} (h : Recorded keccak s₀ acts t rev v) :
    Recorded keccak s₀ (acts ++ [.snapshot]) t.snapshot.1 rev v where
  split := h.extend _
  wf := h.wf
  id := h.id
  journal := h.journal
  back := Journaled.same h.back rfl

/-- The revision a `Snapshot` adds is recorded at the state it was taken in. -/
theorem recorded_snapshot {keccak : List Nat → Hash} {s₀ t : StateDB} {acts : List Action}
    (hrun : run keccak acts s₀ = some t) (hwf : t.WF) :
    Recorded keccak s₀ (acts ++ [.snapshot]) t.snapshot.1 ⟨t.nextRevisionId, t.journal.length⟩ t where
  split := ⟨acts, [], rfl, hrun⟩
  wf := hwf
  id := rfl
  journal := (List.take_length).symm
  back := by
    show Journaled _ _ t _ (t.journal.drop t.journal.length)
    rw [List.drop_length]
    exact Journaled.same .refl rfl

/-- A revert to a later revision undoes the entries after its index, which leaves those after an
    earlier revision's index and before the later one's. -/
theorem Recorded.revert {keccak : List Nat → Hash} {s₀ t w : StateDB} {acts : List Action}
    {rev : Revision} {v : StateDB} (h : Recorded keccak s₀ acts t rev v) {j : Nat}
    (hj : rev.journalIndex ≤ j) (hjlen : j ≤ t.journal.length)
    (hw : undoAll JournalEntry.revert (t.journal.drop j) t = some w) (revid : Int)
    (revisions : List Revision) :
    Recorded keccak s₀ (acts ++ [.revertToSnapshot revid])
      { w with journal := t.journal.take j, validRevisions := revisions } rev v where
  split := h.extend _
  wf := h.wf
  id := h.id
  journal := by
    show v.journal = (t.journal.take j).take rev.journalIndex
    rw [List.take_take, min_eq_left hj, h.journal]
  back := by
    have hsplit : t.journal.drop rev.journalIndex =
        (t.journal.take j).drop rev.journalIndex ++ t.journal.drop j := by
      conv_lhs => rw [← List.take_append_drop j t.journal]
      rw [List.drop_append_of_le_length (by rw [List.length_take_of_le hjlen]; exact hj)]
    have hback := h.back
    rw [hsplit] at hback
    exact Journaled.same (hback.revert hw) rfl

/-- The invariant holds at the start of a run from a well-formed state with no revisions, and
    every action that does not panic keeps it. -/
theorem tracked_of_run (keccak : List Nat → Hash) {s₀ : StateDB} (hwf : s₀.WF)
    (hfresh : s₀.validRevisions = []) :
    ∀ (acts : List Action) {t : StateDB}, run keccak acts s₀ = some t → Tracked keccak s₀ acts t := by
  intro acts
  induction acts using List.reverseRecOn with
  | nil =>
    intro t h
    cases h
    exact ⟨hwf, fun rev hrev => by rw [hfresh] at hrev; cases hrev⟩
  | append_singleton acts a ih =>
    intro t' h
    rw [run_append] at h
    obtain ⟨t, hrun, ha⟩ := Option.bind_eq_some_iff.mp h
    obtain ⟨⟨hk, hal, hrevs⟩, hrec⟩ := ih hrun
    cases a with
    | call c =>
      obtain ⟨es, hc⟩ := Call.apply_change keccak hk hal ha
      have hlen : t.journal.length ≤ t'.journal.length := by simp [hc.journal]
      refine ⟨⟨hc.keyed, hc.accessList, ?_⟩, fun rev hrev => ?_⟩
      · refine ⟨?_, fun rev hrev => ?_, ?_, fun rev hrev => ?_⟩
        · rw [hc.validRevisions]
          exact hrevs.ids
        · rw [hc.validRevisions] at hrev
          rw [hc.nextRevisionId]
          exact hrevs.below rev hrev
        · rw [hc.validRevisions]
          exact hrevs.indices
        · rw [hc.validRevisions] at hrev
          exact (hrevs.within rev hrev).trans hlen
      · rw [hc.validRevisions] at hrev
        obtain ⟨v, hv⟩ := hrec rev hrev
        exact ⟨v, hv.call (hrevs.within rev hrev) hc c⟩
    | snapshot =>
      cases ha
      refine ⟨⟨hk, hal, hrevs.snapshot⟩, fun rev hrev => ?_⟩
      simp only [StateDB.snapshot, List.mem_append, List.mem_singleton] at hrev
      rcases hrev with hrev | rfl
      · obtain ⟨v, hv⟩ := hrec rev hrev
        exact ⟨v, hv.snapshot⟩
      · exact ⟨t, recorded_snapshot hrun ⟨hk, hal, hrevs⟩⟩
    | revertToSnapshot revid =>
      obtain ⟨rev', w, hi, -, hw, rfl⟩ := revertToSnapshot_eq_some ha
      have hmem' := List.mem_of_getElem? hi
      have hjlen := hrevs.within rev' hmem'
      -- the revision reverted to was recorded at a well-formed state, which `w` reads as
      obtain ⟨v', hv'⟩ := hrec rev' hmem'
      obtain ⟨u, hu, hsame⟩ := hv'.back.undoAll_eq same_equivalence revert_respects
      rw [hw, Option.some_inj] at hu
      subst hu
      obtain ⟨hkw, hnext⟩ := undoAll_keyed hk hw
      refine ⟨⟨hkw, hsame.accessList ▸ hv'.wf.accessList, ?_⟩, fun rev hrev => ?_⟩
      · refine ⟨?_, fun rev hrev => ?_, ?_, fun rev hrev => ?_⟩
        · show ((t.validRevisions.take _).map Revision.id).Pairwise _
          rw [List.map_take]
          exact hrevs.ids.take
        · show rev.id < w.nextRevisionId
          rw [hnext]
          exact hrevs.below rev (List.mem_of_mem_take hrev)
        · show ((t.validRevisions.take _).map Revision.journalIndex).Pairwise _
          rw [List.map_take]
          exact hrevs.indices.take
        · show rev.journalIndex ≤ (t.journal.take rev'.journalIndex).length
          rw [List.length_take_of_le hjlen]
          exact hrevs.journalIndex_le hi hrev
      · obtain ⟨v, hv⟩ := hrec rev (List.mem_of_mem_take hrev)
        exact ⟨v, hv.revert (hrevs.journalIndex_le hi hrev) hjlen hw revid _⟩

/-- `RevertToSnapshot` to a valid revision: the entries after its index undone, the journal cut
    there, and the revisions from it on dropped. -/
theorem revertToSnapshot_of_getElem {t w : StateDB}
    (hids : (t.validRevisions.map Revision.id).Pairwise (· < ·)) {i : Nat} {rev : Revision}
    (hi : t.validRevisions[i]? = some rev)
    (hw : undoAll JournalEntry.revert (t.journal.drop rev.journalIndex) t = some w) :
    t.revertToSnapshot rev.id = some { w with journal := t.journal.take rev.journalIndex,
                                              validRevisions := t.validRevisions.take i } := by
  unfold revertToSnapshot
  rw [revisionIndex_eq hids hi, hi]
  simp [revertJournal, hw]

/-! ## What a revert gives back -/

/-- On a state a run reached, a revert to a valid revision succeeds: it gives back a state that
    reads as the one the revision was recorded at, and the journal as it was then. -/
theorem Tracked.revertToSnapshot {keccak : List Nat → Hash} {s₀ t : StateDB} {acts : List Action}
    (ht : Tracked keccak s₀ acts t) {rev : Revision} (hrev : rev ∈ t.validRevisions) :
    ∃ v r, Recorded keccak s₀ acts t rev v ∧ t.revertToSnapshot rev.id = some r ∧ Same r v ∧
      r.journal = v.journal := by
  obtain ⟨⟨-, -, hrevs⟩, hrec⟩ := ht
  obtain ⟨v, hv⟩ := hrec rev hrev
  obtain ⟨i, hi⟩ := List.getElem?_of_mem hrev
  -- undoing the entries after the revision's index reads as the state at the `Snapshot`
  obtain ⟨w, hw, hsame⟩ := hv.back.undoAll_eq same_equivalence revert_respects
  exact ⟨v, _, hv, revertToSnapshot_of_getElem hrevs.ids hi hw, hsame, hv.journal.symm⟩

/-- Every revision a run leaves valid was returned by one of the run's `Snapshot`s, and
    `RevertToSnapshot` to it succeeds, giving back a state whose accessors answer as they did when
    that `Snapshot` was taken, and the journal as it was then. -/
theorem revertToSnapshot_restores (keccak : List Nat → Hash) {s₀ t : StateDB} (hwf : s₀.WF)
    (hfresh : s₀.validRevisions = []) {acts : List Action} (hrun : run keccak acts s₀ = some t)
    {rev : Revision} (hrev : rev ∈ t.validRevisions) :
    ∃ pre post v r, acts = pre ++ .snapshot :: post ∧ run keccak pre s₀ = some v ∧
      v.snapshot.2 = rev.id ∧ t.revertToSnapshot rev.id = some r ∧ SameAccessors r v ∧
      r.journal = v.journal := by
  obtain ⟨v, r, hv, hr, hsame, hjournal⟩ :=
    (tracked_of_run keccak hwf hfresh acts hrun).revertToSnapshot hrev
  obtain ⟨pre, post, hacts, hpre⟩ := hv.split
  exact ⟨pre, post, v, r, hacts, hpre, hv.id, hr, hsame.sameAccessors, hjournal⟩

/-- A run with two snapshots and a revert to the later one between them: the earlier revision
    still gives back the state after the first balance write. -/
theorem revertToSnapshot_restores_after_revert : ∃ t,
    run (fun _ => 0) [.call (.setBalance 1 5), .snapshot, .call (.setManagedParties 1 [[7]]),
      .snapshot, .call (.addRefund 3), .revertToSnapshot 1, .call (.setNonce 1 2)]
      (new ⟨fun _ => none, fun _ => none, fun _ => []⟩) = some t ∧
    (⟨0, 2⟩ : Revision) ∈ t.validRevisions ∧
    ∃ pre post v r, [Action.call (.setBalance 1 5), .snapshot, .call (.setManagedParties 1 [[7]]),
        .snapshot, .call (.addRefund 3), .revertToSnapshot 1, .call (.setNonce 1 2)] =
        pre ++ .snapshot :: post ∧
      run (fun _ => 0) pre (new ⟨fun _ => none, fun _ => none, fun _ => []⟩) = some v ∧
      v.snapshot.2 = (⟨0, 2⟩ : Revision).id ∧ t.revertToSnapshot (⟨0, 2⟩ : Revision).id = some r ∧
      SameAccessors r v ∧ r.journal = v.journal :=
  ⟨_, rfl, by decide, revertToSnapshot_restores _ (wf_new _) rfl rfl (by decide)⟩

/-- On every state a run reaches, `RevertToSnapshot` panics exactly on the ids that no valid
    revision has. -/
theorem revertToSnapshot_isSome_iff (keccak : List Nat → Hash) {s₀ t : StateDB} (hwf : s₀.WF)
    (hfresh : s₀.validRevisions = []) {acts : List Action} (hrun : run keccak acts s₀ = some t)
    (revid : Int) :
    (t.revertToSnapshot revid).isSome ↔ ∃ rev ∈ t.validRevisions, rev.id = revid := by
  constructor
  · intro h
    obtain ⟨r, hr⟩ := Option.isSome_iff_exists.mp h
    obtain ⟨rev, w, hi, hid, -, -⟩ := revertToSnapshot_eq_some hr
    exact ⟨rev, List.mem_of_getElem? hi, hid⟩
  · rintro ⟨rev, hrev, rfl⟩
    obtain ⟨v, r, -, hr, -, -⟩ := (tracked_of_run keccak hwf hfresh acts hrun).revertToSnapshot hrev
    rw [hr]
    rfl

/-- After one snapshot and a refund, the revision the snapshot took is the one id that reverts. -/
theorem revertToSnapshot_isSome_iff_one_snapshot : ∃ t,
    run (fun _ => 0) [.snapshot, .call (.addRefund 3)]
      (new ⟨fun _ => none, fun _ => none, fun _ => []⟩) = some t ∧
    ((t.revertToSnapshot 0).isSome ↔ ∃ rev ∈ t.validRevisions, rev.id = 0) :=
  have hrun : run (fun _ => 0) [.snapshot, .call (.addRefund 3)]
      (new ⟨fun _ => none, fun _ => none, fun _ => []⟩) = some _ := rfl
  ⟨_, hrun, revertToSnapshot_isSome_iff _ (wf_new _) rfl hrun 0⟩

/-- On every state a run reaches, `RevertToSnapshot` keeps exactly the revisions with ids below
    the one it reverts to. -/
theorem revertToSnapshot_validRevisions (keccak : List Nat → Hash) {s₀ t r : StateDB}
    (hwf : s₀.WF) (hfresh : s₀.validRevisions = []) {acts : List Action}
    (hrun : run keccak acts s₀ = some t) {revid : Int} (h : t.revertToSnapshot revid = some r) :
    r.validRevisions = t.validRevisions.filter fun rev => rev.id < revid := by
  obtain ⟨⟨-, -, hrevs⟩, -⟩ := tracked_of_run keccak hwf hfresh acts hrun
  obtain ⟨rev, w, hi, rfl, -, rfl⟩ := revertToSnapshot_eq_some h
  exact take_eq_filter_of_pairwise hrevs.ids hi

/-- Three nested snapshots; reverting to the middle one keeps the first. -/
theorem revertToSnapshot_validRevisions_nested : ∃ t r,
    run (fun _ => 0) [.snapshot, .call (.addRefund 3), .snapshot, .snapshot]
      (new ⟨fun _ => none, fun _ => none, fun _ => []⟩) = some t ∧
    t.revertToSnapshot 1 = some r ∧
    r.validRevisions = t.validRevisions.filter fun rev => rev.id < 1 :=
  have hrun : run (fun _ => 0) [.snapshot, .call (.addRefund 3), .snapshot, .snapshot]
      (new ⟨fun _ => none, fun _ => none, fun _ => []⟩) = some _ := rfl
  ⟨_, _, hrun, rfl, revertToSnapshot_validRevisions _ (wf_new _) rfl hrun rfl⟩

/-! ## Revision ids over a run -/

/-- An action on a well-formed state keeps each valid revision or adds one with the next id, and
    never lowers the next id. -/
theorem Action.apply_revisions (keccak : List Nat → Hash) {a : Action} {t t' : StateDB}
    (hwf : t.WF) (h : a.apply keccak t = some t') :
    (∀ rev ∈ t'.validRevisions, rev ∈ t.validRevisions ∨ rev.id = t.nextRevisionId) ∧
      t.nextRevisionId ≤ t'.nextRevisionId := by
  cases a with
  | call c =>
    obtain ⟨es, hc⟩ := Call.apply_change keccak hwf.keyed hwf.accessList h
    rw [hc.validRevisions, hc.nextRevisionId]
    exact ⟨fun rev hrev => .inl hrev, le_refl _⟩
  | snapshot =>
    cases h
    refine ⟨fun rev hrev => ?_, by simp [StateDB.snapshot]⟩
    simp only [StateDB.snapshot, List.mem_append, List.mem_singleton] at hrev
    rcases hrev with hrev | rfl
    · exact .inl hrev
    · exact .inr rfl
  | revertToSnapshot revid =>
    obtain ⟨rev, w, -, -, hw, rfl⟩ := revertToSnapshot_eq_some h
    obtain ⟨-, hnext⟩ := undoAll_keyed hwf.keyed hw
    exact ⟨fun rev hrev => .inl (List.mem_of_mem_take hrev), hnext.ge⟩

/-- A property of revisions that every action from a state of the run keeps holds at the run's
    end: the run's step, from the state its prefix reached. -/
theorem run_extend_revisions (keccak : List Nat → Hash) {s₀ : StateDB} (hwf : s₀.WF)
    (hfresh : s₀.validRevisions = []) {pre : List Action} (P : StateDB → Prop)
    (hstep : ∀ t t', t.WF → P t →
      (∀ rev ∈ t'.validRevisions, rev ∈ t.validRevisions ∨ rev.id = t.nextRevisionId) →
      t.nextRevisionId ≤ t'.nextRevisionId → P t') :
    ∀ (post : List Action) {v t : StateDB}, run keccak pre s₀ = some v → P v →
      run keccak (pre ++ post) s₀ = some t → P t := by
  intro post
  induction post using List.reverseRecOn with
  | nil =>
    intro v t hv hp ht
    rw [List.append_nil, hv, Option.some_inj] at ht
    exact ht ▸ hp
  | append_singleton post a ih =>
    intro v t' hv hp ht'
    rw [← List.append_assoc, run_append] at ht'
    obtain ⟨t, ht, ha⟩ := Option.bind_eq_some_iff.mp ht'
    have hwft := (tracked_of_run keccak hwf hfresh _ ht).1
    obtain ⟨hrevs, hnext⟩ := Action.apply_revisions keccak hwft ha
    exact hstep t t' hwft (ih hv hp ht) hrevs hnext

/-- Once a run has reverted to a revision, no later `RevertToSnapshot` with its id succeeds: the
    revisions kept have smaller ids, and those taken later larger ones. -/
theorem revertToSnapshot_retires_id (keccak : List Nat → Hash) {s₀ t : StateDB} (hwf : s₀.WF)
    (hfresh : s₀.validRevisions = []) {pre post : List Action} {revid : Int}
    (hrun : run keccak (pre ++ .revertToSnapshot revid :: post) s₀ = some t) :
    t.revertToSnapshot revid = none := by
  rw [← List.singleton_append, ← List.append_assoc] at hrun
  obtain ⟨r, hr, -⟩ := Option.bind_eq_some_iff.mp ((run_append_bind keccak _ post s₀).symm.trans hrun)
  obtain ⟨v, hv, hvr⟩ := Option.bind_eq_some_iff.mp ((run_append keccak pre _ s₀).symm.trans hr)
  -- right after the revert: the revisions kept are below `revid`, which is below the next id
  have hbase : (∀ rev ∈ r.validRevisions, rev.id ≠ revid) ∧ revid < r.nextRevisionId := by
    obtain ⟨⟨hk, -, hrevs⟩, -⟩ := tracked_of_run keccak hwf hfresh pre hv
    obtain ⟨rev', w, hi, rfl, hw, rfl⟩ := revertToSnapshot_eq_some hvr
    obtain ⟨-, hnext⟩ := undoAll_keyed hk hw
    refine ⟨fun rev hrev => ?_, ?_⟩
    · rw [show v.validRevisions.take _ = _ from take_eq_filter_of_pairwise hrevs.ids hi] at hrev
      exact ne_of_lt (decide_eq_true_iff.mp (List.mem_filter.mp hrev).2)
    · show rev'.id < w.nextRevisionId
      rw [hnext]
      exact hrevs.below rev' (List.mem_of_getElem? hi)
  -- every later action keeps it: a new revision takes the next id, above `revid`
  obtain ⟨hids, -⟩ := run_extend_revisions keccak hwf hfresh
    (fun t => (∀ rev ∈ t.validRevisions, rev.id ≠ revid) ∧ revid < t.nextRevisionId)
    (fun _ _ _ ⟨hids, hlt⟩ hrevs hnext => ⟨fun rev hrev => by
      rcases hrevs rev hrev with hrev | hid
      · exact hids rev hrev
      · rw [hid]
        exact ne_of_gt hlt, lt_of_lt_of_le hlt hnext⟩)
    post hr hbase hrun
  cases h : t.revertToSnapshot revid with
  | none => rfl
  | some r' =>
    obtain ⟨rev, w, hi, hid, -, -⟩ := revertToSnapshot_eq_some h
    exact absurd hid (hids rev (List.mem_of_getElem? hi))

/-- A second revert to the same id, after a call and a new snapshot, panics. -/
theorem revertToSnapshot_retires_id_twice : ∃ t,
    run (fun _ => 0) ([.snapshot, .call (.addRefund 3)] ++ .revertToSnapshot 0 ::
        [.snapshot, .call (.setNonce 1 2)]) (new ⟨fun _ => none, fun _ => none, fun _ => []⟩) =
      some t ∧
    t.revertToSnapshot 0 = none :=
  have hrun : run (fun _ => 0) ([.snapshot, .call (.addRefund 3)] ++ .revertToSnapshot 0 ::
      [.snapshot, .call (.setNonce 1 2)]) (new ⟨fun _ => none, fun _ => none, fun _ => []⟩) =
      some _ := rfl
  ⟨_, hrun, revertToSnapshot_retires_id _ (wf_new _) rfl hrun⟩

end StateDB

end QuorumHotstuff.State
