import Mathlib.Tactic.SplitIfs
import Mathlib.Data.List.Basic
import Mathlib.Algebra.Group.Nat.Defs
import Mathlib.Data.List.Range
import QuorumHotstuff.Raft.Membership

/-!
# Applying committed raft entries

`raft/handler.go`: `entriesToApply`, `advanceAppliedIndex` and the loop of `eventLoop` over a
`Ready`: a non-empty snapshot is applied and sets the applied index, then every entry that
`entriesToApply` keeps of `CommittedEntries` is passed to the apply switch and advances the applied
index to its own.  The switch applies a normal entry's block, or a configuration change to the
membership; it ends the loop where `applyNewChainHead` is interrupted (`return`) or panics, and
on a `ConfChangeUpdateNode` (`fatalf`); a node that removed itself stops after the batch.  What
the rest of the node answers is the environment `Env`.  `fatalf` in `entriesToApply` ends the loop
too.  Indices are `uint64`: `entriesToApply` computes its offset modulo `2^64`.

Over any sequence of batches that are runs of one log, each starting at or below the applied index
plus one, every entry passed to the switch is the entry right after the last entry or snapshot
applied (`Chained`, `Inv.next`), and the applied index is the index of that last one
(`run_inv`).  When the switch ends the loop on no entry and indices stay below the largest
`uint64`, the loop runs through every batch to the highest index committed
(`run_smooth`), and without snapshots the entries passed are exactly the log's entries above the
initial applied index up to that index, once each, in order (`entries_applied_once_in_order`).
-/

namespace QuorumHotstuff.Raft

/-- `raftpb.EntryType`. -/
inductive EntryType where
  | normal
  | confChange
deriving DecidableEq, Repr

/-- `raftpb.Entry`. -/
structure Entry where
  term : Nat
  index : Nat
  type : EntryType
  data : List Nat
deriving DecidableEq, Repr

/-- `entriesToApply`: the entries after the applied index, `none` for `fatalf` when the first
entry lies beyond it. -/
def entriesToApply (appliedIndex : Nat) (allEntries : List Entry) : Option (List Entry) :=
  match allEntries with
  | [] => some []
  | e :: _ =>
    if e.index > (appliedIndex + 1) % 2 ^ 64 then none
    else
      let firstToApply := (appliedIndex + 2 ^ 64 - e.index + 1) % 2 ^ 64
      if firstToApply < allEntries.length then some (allEntries.drop firstToApply) else some []

/-- A `Ready`: the index of a non-empty snapshot, if any, and the committed entries. -/
structure Ready where
  snapshot : Option Nat
  committedEntries : List Entry
deriving DecidableEq, Repr

/-- What the loop applies: a snapshot, by its index, or an entry passed to the apply switch and
applied. -/
inductive Applied where
  | snapshot (index : Nat)
  | entry (e : Entry)
deriving DecidableEq, Repr

/-- The index an applied snapshot or entry sets. -/
def Applied.index : Applied → Nat
  | snapshot index => index
  | entry e => e.index

/-- What `applyNewChainHead` makes of a normal entry's block, `HasBlock` before it. -/
inductive BlockOutcome where
  /-- On the chain already, inserted, or reported to the minter as not extending the chain. -/
  | applied
  /-- `InsertChain` aborted: `applyNewChainHead` returns `false`. -/
  | aborted
  /-- A body that fails validation, or another insert error: `panic`. -/
  | panicked
deriving DecidableEq, Repr

/-- The rest of the node as the loop reads it: what becomes of a normal entry's block after what
was applied before it, the configuration change a `confChange` entry's data unmarshals to, and the
membership `applyRaftSnapshot` leaves for the snapshot at an index, which keeps the node's own
raft id. -/
structure Env where
  applyBlock : List Applied → Entry → BlockOutcome
  confChange : Entry → ConfChange
  restore : Nat → Membership → Membership
  restore_raftId : ∀ i pm, (restore i pm).raftId = pm.raftId

/-- How `eventLoop` left the loop. -/
inductive Exit where
  /-- `fatalf` in `entriesToApply`: the batch starts beyond the applied index plus one. -/
  | gap
  /-- `applyNewChainHead` returned `false` on the entry: `return`. -/
  | aborted (e : Entry)
  /-- `applyNewChainHead` panicked on the entry. -/
  | panicked (e : Entry)
  /-- `fatalf("not yet handled: ConfChangeUpdateNode")` on the entry. -/
  | updateNode (e : Entry)
  /-- The node removed itself: the batch was applied, then `Stop`. -/
  | removedSelf
deriving DecidableEq, Repr

/-- The entry the switch stopped on. -/
def Exit.entry? : Exit → Option Entry
  | aborted e | panicked e | updateNode e => some e
  | gap | removedSelf => none

/-- The applied index, what has been applied so far, the membership, `exitAfterApplying`, and how
the loop ended, if it did. -/
structure ApplyState where
  appliedIndex : Nat
  log : List Applied
  membership : Membership
  exitAfterApplying : Bool
  exit : Option Exit
deriving DecidableEq, Repr

namespace ApplyState

/-- `advanceAppliedIndex` after the switch applied the entry. -/
def advance (st : ApplyState) (e : Entry) : ApplyState :=
  { st with log := st.log ++ [.entry e], appliedIndex := e.index }

/-- The apply switch on one entry, then `advanceAppliedIndex`, unless the switch ends the loop.
An empty normal entry is skipped by `break`, which leaves the switch only. -/
def applyEntry (env : Env) (st : ApplyState) (e : Entry) : ApplyState :=
  match e.type with
  | .normal =>
    if e.data = [] then st.advance e
    else match env.applyBlock st.log e with
      | .applied => st.advance e
      | .aborted => { st with exit := some (.aborted e) }
      | .panicked => { st with exit := some (.panicked e) }
  | .confChange =>
    match st.membership.applyConfChange (env.confChange e) with
    | none => { st with exit := some (.updateNode e) }
    | some pm =>
      { st.advance e with
        membership := pm
        exitAfterApplying := st.exitAfterApplying || st.membership.removesSelf (env.confChange e) }

/-- The entries `entriesToApply` keeps, one after another until the switch ends the loop. -/
def applyEntries (env : Env) : ApplyState → List Entry → ApplyState
  | st, [] => st
  | st, e :: es =>
    match (st.applyEntry env e).exit with
    | some _ => st.applyEntry env e
    | none => applyEntries env (st.applyEntry env e) es

/-- The snapshot of a `Ready`, when it has one. -/
def applySnapshot (env : Env) (st : ApplyState) : Option Nat → ApplyState
  | some index =>
    { st with log := st.log ++ [.snapshot index], appliedIndex := index,
              membership := env.restore index st.membership }
  | none => st

/-- What is left of one `Ready` after its snapshot: the committed entries, then the exit of a node
that removed itself. -/
def applyCommitted (env : Env) (st : ApplyState) (committedEntries : List Entry) : ApplyState :=
  match entriesToApply st.appliedIndex committedEntries with
  | none => { st with exit := some .gap }
  | some es =>
    let st := applyEntries env st es
    if st.exit = none ∧ st.exitAfterApplying = true then { st with exit := some .removedSelf }
    else st

/-- The loop of `eventLoop` over one `Ready`; a loop that has ended reads no more. -/
def handleReady (env : Env) (st : ApplyState) (rd : Ready) : ApplyState :=
  match st.exit with
  | some _ => st
  | none => (st.applySnapshot env rd.snapshot).applyCommitted env rd.committedEntries

/-- The loop over a sequence of `Ready`s. -/
def run (env : Env) (st : ApplyState) (rds : List Ready) : ApplyState :=
  rds.foldl (handleReady env) st

end ApplyState

/-- The entries passed to the apply switch and applied. -/
def entriesOf (log : List Applied) : List Entry :=
  log.filterMap fun
    | .entry e => some e
    | .snapshot _ => none

/-- The index after a sequence of applied snapshots and entries, from `a`. -/
def lastIndex (a : Nat) (log : List Applied) : Nat := log.foldl (fun _ x => x.index) a

/-- The index a batch takes the loop to from `a`, when nothing ends it: the larger of its
snapshot's (or `a`) and its last committed entry's. -/
def Ready.reach (rd : Ready) (a : Nat) : Nat :=
  max (rd.snapshot.getD a) ((rd.committedEntries.getLast?.map Entry.index).getD 0)

/-- The index a sequence of batches takes the loop to from `a`. -/
def reach : Nat → List Ready → Nat
  | a, [] => a
  | a, rd :: rds => reach (rd.reach a) rds

/-! ## Batches that are runs of one log -/

section Log

variable (log : Nat → Entry)

/-- Every entry is the log's entry right after the last snapshot or entry applied before it. -/
def Chained : Nat → List Applied → Prop
  | _, [] => True
  | _, .snapshot k :: rest => Chained k rest
  | a, .entry e :: rest => e = log (a + 1) ∧ Chained e.index rest

/-- Each batch is a run of the log, starting at or below the applied index plus one (after the
batch's snapshot), within `uint64` indices that start at one. -/
def Runs : Nat → List Ready → Prop
  | _, [] => True
  | a, rd :: rds =>
    (∀ k, rd.snapshot = some k → k < 2 ^ 64) ∧
    ∃ s n, rd.committedEntries = (List.range' s n).map log ∧ 1 ≤ s ∧
      s ≤ rd.snapshot.getD a + 1 ∧ s + n ≤ 2 ^ 64 ∧ Runs (rd.reach a) rds

end Log

/-- The loop's invariant from the initial applied index `a₀`: what it applied is chained, the
applied index is that of the last snapshot or entry applied and is a `uint64`, and an entry the
switch stopped on is the one right after it. -/
structure Inv (log : Nat → Entry) (a₀ : Nat) (st : ApplyState) : Prop where
  chained : Chained log a₀ st.log
  index : st.appliedIndex = lastIndex a₀ st.log
  lt : st.appliedIndex < 2 ^ 64
  next : ∀ x ∈ st.exit, ∀ e ∈ x.entry?, e = log (st.appliedIndex + 1)

/-- The switch ends the loop on no entry: every block applies, and no configuration change is an
update or removes the node of raft id `raftId`. -/
def Env.Smooth (env : Env) (raftId : Nat) : Prop :=
  (∀ l e, env.applyBlock l e = .applied) ∧
    ∀ e, (env.confChange e).type ≠ .updateNode ∧
      ((env.confChange e).type = .removeNode → (env.confChange e).nodeId % 2 ^ 16 ≠ raftId)

/-- A batch whose indices stay below the largest `uint64`. -/
def Ready.Below (rd : Ready) : Prop :=
  (∀ k, rd.snapshot = some k → k + 1 < 2 ^ 64) ∧ ∀ e ∈ rd.committedEntries, e.index + 1 < 2 ^ 64

/-! ## One batch -/

section Batch

variable {log : Nat → Entry}

@[simp] theorem lastIndex_nil (a : Nat) : lastIndex a [] = a := rfl

@[simp] theorem lastIndex_cons (a : Nat) (x : Applied) (l : List Applied) :
    lastIndex a (x :: l) = lastIndex x.index l := rfl

theorem lastIndex_append (a : Nat) (l l' : List Applied) :
    lastIndex a (l ++ l') = lastIndex (lastIndex a l) l' := by
  simp [lastIndex, List.foldl_append]

theorem chained_append : ∀ (a : Nat) (l l' : List Applied),
    Chained log a (l ++ l') ↔ Chained log a l ∧ Chained log (lastIndex a l) l'
  | _, [], _ => by simp [Chained]
  | _, .snapshot k :: l, l' => by
    simp only [List.cons_append, Chained, lastIndex_cons, Applied.index]
    exact chained_append k l l'
  | _, .entry e :: l, l' => by
    simp only [List.cons_append, Chained, lastIndex_cons, Applied.index]
    rw [chained_append e.index l l', and_assoc]

/-- A run of the log right after `a` is chained from `a` and ends `k` further. -/
theorem chained_range (hlog : ∀ i, (log i).index = i) :
    ∀ (k a : Nat), Chained log a ((List.range' (a + 1) k).map (Applied.entry ∘ log)) ∧
      lastIndex a ((List.range' (a + 1) k).map (Applied.entry ∘ log)) = a + k
  | 0, a => by simp [Chained]
  | k + 1, a => by
    have ih := chained_range hlog k (a + 1)
    simp only [List.range'_succ, List.map_cons, Function.comp, Chained, lastIndex_cons,
      Applied.index, hlog, true_and]
    exact ⟨ih.1, by rw [ih.2]; omega⟩

/-- On a run of the log starting at or below the applied index plus one, `entriesToApply` keeps
the entries after the applied index, and stops the loop only when the index is the largest
`uint64`. -/
theorem entriesToApply_run (a s n : Nat) (hlog : ∀ i, (log i).index = i) (ha : a < 2 ^ 64)
    (hs : 1 ≤ s) (hsa : s ≤ a + 1) :
    entriesToApply a ((List.range' s n).map log) =
      if a + 1 = 2 ^ 64 ∧ 0 < n then none
      else some ((List.range' (a + 1) (s + n - 1 - a)).map log) := by
  cases n with
  | zero =>
    rw [if_neg (by omega), show s + 0 - 1 - a = 0 by omega]
    rfl
  | succ m =>
    simp only [List.range'_succ, List.map_cons, entriesToApply, hlog]
    by_cases hmax : a + 1 = 2 ^ 64
    · -- the index wraps to zero, below every entry
      rw [hmax, Nat.mod_self, if_pos (show 0 < s by omega), if_pos ⟨rfl, by omega⟩]
    · rw [Nat.mod_eq_of_lt (show a + 1 < 2 ^ 64 by omega), if_neg (show ¬ s > a + 1 by omega),
        if_neg (show ¬ (a + 1 = 2 ^ 64 ∧ 0 < m + 1) from fun h => hmax h.1)]
      have hoff : (a + 2 ^ 64 - s + 1) % 2 ^ 64 = a + 1 - s := by
        rw [show a + 2 ^ 64 - s + 1 = (a + 1 - s) + 2 ^ 64 by omega, Nat.add_mod_right,
          Nat.mod_eq_of_lt (by omega)]
      rw [hoff, ← List.map_cons, ← List.range'_succ, List.length_map, List.length_range']
      split_ifs with hlt
      · rw [← List.map_drop, List.drop_range', show s + (a + 1 - s) * 1 = a + 1 by omega,
          show m + 1 - (a + 1 - s) = s + (m + 1) - 1 - a by omega]
      · rw [show s + (m + 1) - 1 - a = 0 by omega]
        rfl


/-- What the switch does with one entry: it applies it and advances the index, or it ends the loop
on it and leaves the rest. -/
theorem ApplyState.applyEntry_cases (env : Env) (st : ApplyState) (e : Entry) :
    ((st.applyEntry env e).log = st.log ++ [.entry e] ∧ (st.applyEntry env e).appliedIndex = e.index ∧
      (st.applyEntry env e).exit = st.exit) ∨
    ((st.applyEntry env e).log = st.log ∧ (st.applyEntry env e).appliedIndex = st.appliedIndex ∧
      ∃ x, (st.applyEntry env e).exit = some x ∧ x.entry? = some e) := by
  unfold applyEntry
  split
  · split_ifs
    · exact .inl ⟨rfl, rfl, rfl⟩
    · split
      · exact .inl ⟨rfl, rfl, rfl⟩
      · exact .inr ⟨rfl, rfl, _, rfl, rfl⟩
      · exact .inr ⟨rfl, rfl, _, rfl, rfl⟩
  · split
    · exact .inr ⟨rfl, rfl, _, rfl, rfl⟩
    · exact .inl ⟨rfl, rfl, rfl⟩

/-- With a smooth switch, an entry is applied, the node's raft id kept and no exit planned. -/
theorem ApplyState.applyEntry_smooth {env : Env} {raftId : Nat} (hsm : env.Smooth raftId)
    {st : ApplyState} (hid : st.membership.raftId = raftId) (hplan : st.exitAfterApplying = false)
    (e : Entry) :
    (st.applyEntry env e).log = st.log ++ [.entry e] ∧ (st.applyEntry env e).appliedIndex = e.index ∧
      (st.applyEntry env e).exit = st.exit ∧ (st.applyEntry env e).membership.raftId = raftId ∧
      (st.applyEntry env e).exitAfterApplying = false := by
  unfold applyEntry
  split
  · split_ifs
    · exact ⟨rfl, rfl, rfl, hid, hplan⟩
    · rw [hsm.1]
      exact ⟨rfl, rfl, rfl, hid, hplan⟩
  · obtain ⟨hupd, hrem⟩ := hsm.2 e
    cases hpm : st.membership.applyConfChange (env.confChange e) with
    | none => exact absurd ((Membership.applyConfChange_eq_none_iff _ _).mp hpm) hupd
    | some pm =>
      -- the change removes another node, or none
      have hself : st.membership.removesSelf (env.confChange e) = false := by
        unfold Membership.removesSelf
        by_cases hty : (env.confChange e).type = .removeNode
        · have hne : ¬ (env.confChange e).nodeId % 65536 = raftId := hrem hty
          simp [hty, hid, hne]
        · simp [hty]
      exact ⟨rfl, rfl, rfl, (Membership.raftId_applyConfChange hpm).trans hid, by simp [hplan, hself]⟩

/-- Over the log's entries right after the applied index, the switch applies a first part of
them, and ends the loop on the entry right after that part or applies them all. -/
theorem ApplyState.applyEntries_range (hlog : ∀ i, (log i).index = i) (env : Env) :
    ∀ (k : Nat) (st : ApplyState), st.exit = none →
      ∃ j ≤ k, (applyEntries env st ((List.range' (st.appliedIndex + 1) k).map log)).log =
          st.log ++ (List.range' (st.appliedIndex + 1) j).map (Applied.entry ∘ log) ∧
        (applyEntries env st ((List.range' (st.appliedIndex + 1) k).map log)).appliedIndex =
          st.appliedIndex + j ∧
        ((applyEntries env st ((List.range' (st.appliedIndex + 1) k).map log)).exit = none →
          j = k) ∧
        ∀ x ∈ (applyEntries env st ((List.range' (st.appliedIndex + 1) k).map log)).exit,
          ∀ e ∈ x.entry?, e = log (st.appliedIndex + j + 1)
  | 0, st, hnone => ⟨0, le_refl _, by simp [applyEntries], rfl, fun _ => rfl,
      fun x hx => by simp [applyEntries, hnone] at hx⟩
  | k + 1, st, hnone => by
    simp only [List.range'_succ, List.map_cons, applyEntries]
    rcases applyEntry_cases env st (log (st.appliedIndex + 1)) with ⟨hl, hi, hx⟩ | ⟨hl, hi, x, hx, he⟩
    · -- applied: the rest from the next index
      rw [hx, hnone]
      dsimp only
      have hnext : (st.applyEntry env (log (st.appliedIndex + 1))).appliedIndex + 1 =
          st.appliedIndex + 1 + 1 := by rw [hi, hlog]
      obtain ⟨j, hj, hl', hi', hk, hent⟩ :=
        applyEntries_range hlog env k (st.applyEntry env (log (st.appliedIndex + 1))) (hx.trans hnone)
      rw [hnext] at hl' hi' hk hent
      refine ⟨j + 1, by omega, ?_, ?_, fun h => by rw [hk h], fun x hx e he => ?_⟩
      · rw [hl', hl, List.range'_succ, List.map_cons, List.append_assoc]
        rfl
      · rw [hi', hi, hlog]
        omega
      · rw [hent x hx e he]
        congr 1
        omega
    · -- the loop ends on the first entry
      rw [hx]
      dsimp only
      refine ⟨0, by omega, by rw [hl]; simp, by rw [hi]; rfl, fun h => ?_, fun y hy e' he' => ?_⟩
      · rw [hx] at h
        cases h
      · rw [hx, Option.mem_def, Option.some_inj] at hy
        subst hy
        rw [he, Option.mem_def, Option.some_inj] at he'
        rw [← he', Nat.add_zero]

/-- With a smooth switch, the entries are all applied, the raft id kept and no exit planned. -/
theorem ApplyState.applyEntries_smooth {env : Env} {raftId : Nat} (hsm : env.Smooth raftId) :
    ∀ (es : List Entry) {st : ApplyState}, st.exit = none → st.membership.raftId = raftId →
      st.exitAfterApplying = false →
      (applyEntries env st es).exit = none ∧ (applyEntries env st es).membership.raftId = raftId ∧
        (applyEntries env st es).exitAfterApplying = false
  | [], _, hnone, hid, hplan => ⟨hnone, hid, hplan⟩
  | e :: es, st, hnone, hid, hplan => by
    obtain ⟨-, -, hx, hid', hplan'⟩ := applyEntry_smooth hsm hid hplan e
    simp only [applyEntries, hx, hnone]
    exact applyEntries_smooth hsm es (hx.trans hnone) hid' hplan'


/-- The index a batch that is a run of the log takes the loop to. -/
theorem Ready.reach_run {rd : Ready} {a s n : Nat} (hlog : ∀ i, (log i).index = i)
    (hrun : rd.committedEntries = (List.range' s n).map log) (hsa : s ≤ rd.snapshot.getD a + 1) :
    rd.reach a = max (rd.snapshot.getD a) (s + n - 1) := by
  unfold Ready.reach
  rw [hrun]
  cases n with
  | zero => simp; omega
  | succ m =>
    rw [List.getLast?_map, List.getLast?_range', if_neg (Nat.succ_ne_zero m)]
    simp [hlog]

/-- A batch below the largest `uint64` takes an index below it to one below it. -/
theorem Ready.Below.reach_lt {rd : Ready} (hb : rd.Below) {a : Nat} (ha : a + 1 < 2 ^ 64) :
    rd.reach a + 1 < 2 ^ 64 := by
  have h₁ : rd.snapshot.getD a + 1 < 2 ^ 64 := by
    cases hk : rd.snapshot with
    | none => exact ha
    | some k => exact hb.1 k hk
  have h₂ : (rd.committedEntries.getLast?.map Entry.index).getD 0 + 1 < 2 ^ 64 := by
    cases hl : rd.committedEntries.getLast? with
    | none => simp
    | some e => exact hb.2 e (List.mem_of_getLast? hl)
  unfold Ready.reach
  omega

/-- The snapshot keeps the invariant and sets the index the entries start from. -/
theorem Inv.applySnapshot {a₀ : Nat} {st : ApplyState} (hinv : Inv log a₀ st)
    (hnone : st.exit = none) (env : Env) {snap : Option Nat} (hsnap : ∀ k, snap = some k → k < 2 ^ 64) :
    Inv log a₀ (st.applySnapshot env snap) ∧
      (st.applySnapshot env snap).appliedIndex = snap.getD st.appliedIndex ∧
      (st.applySnapshot env snap).exit = none ∧
      (st.applySnapshot env snap).exitAfterApplying = st.exitAfterApplying ∧
      (st.applySnapshot env snap).membership.raftId = st.membership.raftId := by
  cases hk : snap with
  | none => exact ⟨hinv, rfl, hnone, rfl, rfl⟩
  | some k =>
    refine ⟨⟨?_, ?_, hsnap k hk, fun x hx => by simp [ApplyState.applySnapshot, hnone] at hx⟩,
      rfl, hnone, rfl, env.restore_raftId k _⟩
    · simp [ApplyState.applySnapshot, chained_append, hinv.chained, Chained]
    · simp [ApplyState.applySnapshot, lastIndex_append, Applied.index]

/-- One batch that is a run of the log keeps the invariant; unless it ends the loop, it takes the
applied index to the batch's reach. -/
theorem handleReady_inv (hlog : ∀ i, (log i).index = i) (env : Env) {a₀ s n : Nat}
    {st : ApplyState} {rd : Ready} (hinv : Inv log a₀ st) (hnone : st.exit = none)
    (hsnap : ∀ k, rd.snapshot = some k → k < 2 ^ 64)
    (hrun : rd.committedEntries = (List.range' s n).map log) (hs : 1 ≤ s)
    (hsa : s ≤ rd.snapshot.getD st.appliedIndex + 1) (hn : s + n ≤ 2 ^ 64) :
    Inv log a₀ (st.handleReady env rd) ∧
      ((st.handleReady env rd).exit = none →
        (st.handleReady env rd).appliedIndex = rd.reach st.appliedIndex) := by
  obtain ⟨hinv₁, ha₁, hnone₁, -, -⟩ := hinv.applySnapshot hnone env hsnap
  have hreach := Ready.reach_run (a := st.appliedIndex) hlog hrun hsa
  unfold ApplyState.handleReady
  rw [hnone]
  dsimp only
  unfold ApplyState.applyCommitted
  rw [hrun, entriesToApply_run _ s n hlog hinv₁.lt hs (by rw [ha₁]; exact hsa)]
  split_ifs with hmax
  · -- `fatalf`: nothing more is applied
    exact ⟨⟨hinv₁.chained, hinv₁.index, hinv₁.lt, fun x hx e he => by
      simp only [Option.mem_def, Option.some_inj] at hx
      subst hx
      cases he⟩, fun h => by cases h⟩
  · dsimp only
    -- the entries right after the index the snapshot left
    set st₁ := st.applySnapshot env rd.snapshot
    obtain ⟨j, hj, hl, hi, hall, hent⟩ :=
      ApplyState.applyEntries_range hlog env (s + n - 1 - st₁.appliedIndex) st₁ hnone₁
    have hr := chained_range hlog j st₁.appliedIndex
    have hinv₂ : Inv log a₀ (ApplyState.applyEntries env st₁
        ((List.range' (st₁.appliedIndex + 1) (s + n - 1 - st₁.appliedIndex)).map log)) := by
      refine ⟨?_, ?_, ?_, fun x hx e he => by rw [hent x hx e he, hi]⟩
      · rw [hl, chained_append, ← hinv₁.index]
        exact ⟨hinv₁.chained, hr.1⟩
      · rw [hl, hi, lastIndex_append, ← hinv₁.index, hr.2]
      · have := hinv₁.lt
        rw [hi]
        omega
    split_ifs with hself
    · exact ⟨⟨hinv₂.chained, hinv₂.index, hinv₂.lt, fun x hx e he => by
        simp only [Option.mem_def, Option.some_inj] at hx
        subst hx
        cases he⟩, fun h => by cases h⟩
    · refine ⟨hinv₂, fun h => ?_⟩
      rw [hi, hall h, hreach, ← ha₁]
      omega

/-- With a smooth switch and indices below the largest `uint64`, a batch never ends the loop, and
keeps the raft id and the plan to stay. -/
theorem handleReady_smooth (hlog : ∀ i, (log i).index = i) {env : Env} {raftId : Nat}
    (hsm : env.Smooth raftId) {st : ApplyState} {rd : Ready} {s n : Nat} (hnone : st.exit = none)
    (hid : st.membership.raftId = raftId) (hplan : st.exitAfterApplying = false)
    (hlt : st.appliedIndex + 1 < 2 ^ 64) (hbelow : rd.Below)
    (hrun : rd.committedEntries = (List.range' s n).map log) (hs : 1 ≤ s)
    (hsa : s ≤ rd.snapshot.getD st.appliedIndex + 1) :
    (st.handleReady env rd).exit = none ∧ (st.handleReady env rd).membership.raftId = raftId ∧
      (st.handleReady env rd).exitAfterApplying = false := by
  -- after the snapshot the index is still below the largest `uint64`
  have hlt₁ : (st.applySnapshot env rd.snapshot).appliedIndex + 1 < 2 ^ 64 := by
    cases hk : rd.snapshot with
    | none => exact hlt
    | some k => exact hbelow.1 k hk
  have ha₁ : (st.applySnapshot env rd.snapshot).appliedIndex = rd.snapshot.getD st.appliedIndex := by
    cases rd.snapshot <;> rfl
  have hid₁ : (st.applySnapshot env rd.snapshot).membership.raftId = raftId := by
    cases rd.snapshot with
    | none => exact hid
    | some k => exact (env.restore_raftId k _).trans hid
  have hsnap₁ : (st.applySnapshot env rd.snapshot).exit = none ∧
      (st.applySnapshot env rd.snapshot).exitAfterApplying = false := by
    cases rd.snapshot with
    | none => exact ⟨hnone, hplan⟩
    | some k => exact ⟨hnone, hplan⟩
  unfold ApplyState.handleReady
  rw [hnone]
  dsimp only
  unfold ApplyState.applyCommitted
  -- `entriesToApply` finds no gap: the batch starts in time and the index plus one does not wrap
  rw [hrun, entriesToApply_run _ s n hlog (by omega) hs (by rw [ha₁]; exact hsa),
    if_neg (fun h => by omega)]
  dsimp only
  obtain ⟨hx, hid₂, hplan₂⟩ := ApplyState.applyEntries_smooth hsm
    ((List.range' ((st.applySnapshot env rd.snapshot).appliedIndex + 1)
      (s + n - 1 - (st.applySnapshot env rd.snapshot).appliedIndex)).map log) hsnap₁.1 hid₁ hsnap₁.2
  rw [if_neg (by simp [hplan₂])]
  exact ⟨hx, hid₂, hplan₂⟩

/-- Without a snapshot, a batch applies entries only. -/
theorem handleReady_log_entries (env : Env) (st : ApplyState) (entries : List Entry) :
    ∃ es : List Entry, (st.handleReady env ⟨none, entries⟩).log = st.log ++ es.map .entry := by
  -- what the switch applies of the entries is a first part of them
  have hentries : ∀ (es : List Entry) (st : ApplyState),
      ∃ es' : List Entry, (ApplyState.applyEntries env st es).log = st.log ++ es'.map .entry := by
    intro es
    induction es with
    | nil => exact fun st => ⟨[], by simp [ApplyState.applyEntries]⟩
    | cons e es ih =>
      intro st
      simp only [ApplyState.applyEntries]
      rcases ApplyState.applyEntry_cases env st e with ⟨hl, -, -⟩ | ⟨hl, -, -⟩
      · split
        · exact ⟨[e], by rw [hl]; rfl⟩
        · obtain ⟨es', hes'⟩ := ih (st.applyEntry env e)
          exact ⟨e :: es', by rw [hes', hl]; simp⟩
      · split
        · exact ⟨[], by rw [hl]; simp⟩
        · obtain ⟨es', hes'⟩ := ih (st.applyEntry env e)
          exact ⟨es', by rw [hes', hl]⟩
  unfold ApplyState.handleReady
  split
  · exact ⟨[], by simp⟩
  · unfold ApplyState.applyCommitted
    split
    · exact ⟨[], by simp [ApplyState.applySnapshot]⟩
    · obtain ⟨es', hes'⟩ := hentries _ st
      dsimp only
      split_ifs
      · exact ⟨es', hes'⟩
      · exact ⟨es', hes'⟩

end Batch

/-! ## Whole runs -/

section Run

variable {log : Nat → Entry}

theorem ApplyState.run_cons (env : Env) (st : ApplyState) (rd : Ready) (rds : List Ready) :
    st.run env (rd :: rds) = (st.handleReady env rd).run env rds := rfl

/-- A loop that has ended reads no more batches. -/
theorem ApplyState.run_of_exit (env : Env) {st : ApplyState} {x : Exit} (hx : st.exit = some x) :
    ∀ rds : List Ready, st.run env rds = st
  | [] => rfl
  | rd :: rds => by
    rw [run_cons]
    have hsame : st.handleReady env rd = st := by simp [handleReady, hx]
    rw [hsame]
    exact run_of_exit env hx rds

/-- The invariant holds after any sequence of batches that are runs of the log, each starting at
or below the applied index plus one when the loop reaches it. -/
theorem run_inv (hlog : ∀ i, (log i).index = i) (env : Env) (a₀ : Nat) :
    ∀ (rds : List Ready) (st : ApplyState), Inv log a₀ st →
      (st.exit = none → Runs log st.appliedIndex rds) → Inv log a₀ (st.run env rds)
  | [], _, hinv, _ => hinv
  | rd :: rds, st, hinv, hruns => by
    cases hx : st.exit with
    | some x =>
      rw [ApplyState.run_of_exit env hx]
      exact hinv
    | none =>
      rw [ApplyState.run_cons]
      obtain ⟨hsnap, s, n, hrun, hs, hsa, hn, hrest⟩ := hruns hx
      obtain ⟨hinv', hidx'⟩ := handleReady_inv hlog env hinv hx hsnap hrun hs hsa hn
      exact run_inv hlog env a₀ rds _ hinv' (fun h => by rw [hidx' h]; exact hrest)

/-- With a smooth switch, from an index below the largest `uint64`, over batches that are runs of
the log and stay below it, the loop never ends and takes the applied index to the batches'
reach. -/
theorem run_smooth (hlog : ∀ i, (log i).index = i) {env : Env} {raftId : Nat}
    (hsm : env.Smooth raftId) (a₀ : Nat) :
    ∀ (rds : List Ready) (st : ApplyState), Inv log a₀ st → st.exit = none →
      st.membership.raftId = raftId → st.exitAfterApplying = false →
      st.appliedIndex + 1 < 2 ^ 64 → Runs log st.appliedIndex rds → (∀ rd ∈ rds, rd.Below) →
      (st.run env rds).exit = none ∧ (st.run env rds).appliedIndex = reach st.appliedIndex rds
  | [], _, _, hnone, _, _, _, _, _ => ⟨hnone, rfl⟩
  | rd :: rds, st, hinv, hnone, hid, hplan, hlt, hruns, hbelow => by
    rw [ApplyState.run_cons]
    obtain ⟨hsnap, s, n, hrun, hs, hsa, hn, hrest⟩ := hruns
    obtain ⟨hinv', hidx'⟩ := handleReady_inv hlog env hinv hnone hsnap hrun hs hsa hn
    obtain ⟨hx', hid', hplan'⟩ :=
      handleReady_smooth hlog hsm hnone hid hplan hlt (hbelow rd List.mem_cons_self) hrun hs hsa
    have hlt' := (hbelow rd List.mem_cons_self).reach_lt hlt
    rw [← hidx' hx'] at hlt' hrest
    rw [reach, ← hidx' hx']
    exact run_smooth hlog hsm a₀ rds _ hinv' hx' hid' hplan' hlt' hrest
      (fun rd' h => hbelow rd' (List.mem_cons_of_mem _ h))

/-- Without snapshots, the loop applies entries only. -/
theorem run_no_snapshot (env : Env) :
    ∀ (rds : List Ready) (st : ApplyState), (∀ rd ∈ rds, rd.snapshot = none) →
      ∃ es : List Entry, (st.run env rds).log = st.log ++ es.map .entry
  | [], st, _ => ⟨[], by simp [ApplyState.run]⟩
  | ⟨snap, entries⟩ :: rds, st, hnone => by
    obtain rfl : snap = none := hnone _ List.mem_cons_self
    obtain ⟨es, hes⟩ := handleReady_log_entries env st entries
    obtain ⟨es', hes'⟩ := run_no_snapshot env rds (st.handleReady env ⟨none, entries⟩)
      fun rd hrd => hnone rd (List.mem_cons_of_mem _ hrd)
    exact ⟨es ++ es', by rw [ApplyState.run_cons, hes', hes]; simp⟩

/-- Chained entries with no snapshot between them are the log's entries after `a`, in order. -/
theorem entriesOf_chained (hlog : ∀ i, (log i).index = i) :
    ∀ (a : Nat) (es : List Entry), Chained log a (es.map .entry) →
      entriesOf (es.map .entry) = (List.range' (a + 1) (lastIndex a (es.map .entry) - a)).map log ∧
        a ≤ lastIndex a (es.map .entry)
  | a, [], _ => by simp [entriesOf]
  | a, e :: es, hch => by
    obtain ⟨rfl, hrest⟩ := hch
    have ih := entriesOf_chained hlog (a + 1) es (by rwa [hlog] at hrest)
    simp only [List.map_cons, lastIndex_cons, Applied.index, hlog] at ih ⊢
    refine ⟨?_, by omega⟩
    rw [show lastIndex (a + 1) (es.map .entry) - a =
      (lastIndex (a + 1) (es.map .entry) - (a + 1)) + 1 by omega, List.range'_succ, List.map_cons,
      ← ih.1]
    rfl

end Run

/-- Over any sequence of `Ready`s whose committed entries are runs of one log, each starting at or
below the applied index plus one: every entry applied is the log's entry right after the last
snapshot or entry applied, the applied index is the index of the last one applied, and an entry the
switch ended the loop on is the one after it.  When the switch ends the loop on no entry and the
indices stay below the largest `uint64`, the loop reads every batch and ends at their reach, and
with no snapshot the entries applied are exactly the log's entries above the initial applied index
up to it, each once, in order. -/
theorem entries_applied_once_in_order (env : Env) (log : Nat → Entry) (hlog : ∀ i, (log i).index = i)
    (a₀ : Nat) (ha₀ : a₀ < 2 ^ 64) (pm₀ : Membership) (rds : List Ready)
    (hruns : Runs log a₀ rds) :
    (Chained log a₀ (ApplyState.run env ⟨a₀, [], pm₀, false, none⟩ rds).log ∧
      (ApplyState.run env ⟨a₀, [], pm₀, false, none⟩ rds).appliedIndex =
        lastIndex a₀ (ApplyState.run env ⟨a₀, [], pm₀, false, none⟩ rds).log ∧
      ∀ x ∈ (ApplyState.run env ⟨a₀, [], pm₀, false, none⟩ rds).exit, ∀ e ∈ x.entry?,
        e = log ((ApplyState.run env ⟨a₀, [], pm₀, false, none⟩ rds).appliedIndex + 1)) ∧
    (env.Smooth pm₀.raftId → a₀ + 1 < 2 ^ 64 → (∀ rd ∈ rds, rd.Below) →
      (ApplyState.run env ⟨a₀, [], pm₀, false, none⟩ rds).exit = none ∧
      (ApplyState.run env ⟨a₀, [], pm₀, false, none⟩ rds).appliedIndex = reach a₀ rds ∧
      ((∀ rd ∈ rds, rd.snapshot = none) →
        entriesOf (ApplyState.run env ⟨a₀, [], pm₀, false, none⟩ rds).log =
          (List.range' (a₀ + 1) (reach a₀ rds - a₀)).map log)) := by
  have hinv₀ : Inv log a₀ ⟨a₀, [], pm₀, false, none⟩ :=
    ⟨trivial, rfl, ha₀, fun x hx => by cases hx⟩
  have hinv := run_inv hlog env a₀ rds _ hinv₀ fun _ => hruns
  refine ⟨⟨hinv.chained, hinv.index, hinv.next⟩, fun hsm hlt hbelow => ?_⟩
  obtain ⟨hx, hreach⟩ := run_smooth hlog hsm a₀ rds _ hinv₀ rfl rfl rfl hlt hruns hbelow
  refine ⟨hx, hreach, fun hnone => ?_⟩
  -- without snapshots the log holds entries only, chained from `a₀`
  obtain ⟨es, hes⟩ := run_no_snapshot env rds ⟨a₀, [], pm₀, false, none⟩ hnone
  simp only [List.nil_append] at hes
  have hch := hinv.chained
  have hidx := hinv.index
  rw [hes] at hch hidx ⊢
  rw [← hreach, hidx]
  exact (entriesOf_chained hlog a₀ es hch).1

/-- An environment where every block applies and every configuration change adds a node. -/
def smoothEnv : Env :=
  ⟨fun _ _ => .applied, fun _ => ⟨.addNode, 9, ⟨9, 19, 30301, 50401, ""⟩⟩, fun _ pm => pm,
    fun _ _ => rfl⟩

/-- Applied index 5, a batch of the entries 4 to 8 and one of 8 to 10: the entries 6 to 10 are
applied, each once. -/
theorem entries_applied_once_in_order_overlap :
    Runs (fun i => ⟨1, i, .normal, [i]⟩) 5
        [⟨none, (List.range' 4 5).map fun i => ⟨1, i, .normal, [i]⟩⟩,
          ⟨none, (List.range' 8 3).map fun i => ⟨1, i, .normal, [i]⟩⟩] ∧
      smoothEnv.Smooth bootstrapCluster.raftId ∧
      (∀ rd ∈ [(⟨none, (List.range' 4 5).map fun i => ⟨1, i, .normal, [i]⟩⟩ : Ready),
          ⟨none, (List.range' 8 3).map fun i => ⟨1, i, .normal, [i]⟩⟩], rd.Below) ∧
      entriesOf (ApplyState.run smoothEnv ⟨5, [], bootstrapCluster, false, none⟩
        [⟨none, (List.range' 4 5).map fun i => ⟨1, i, .normal, [i]⟩⟩,
          ⟨none, (List.range' 8 3).map fun i => ⟨1, i, .normal, [i]⟩⟩]).log =
      (List.range' 6 (reach 5 [⟨none, (List.range' 4 5).map fun i => ⟨1, i, .normal, [i]⟩⟩,
          ⟨none, (List.range' 8 3).map fun i => ⟨1, i, .normal, [i]⟩⟩] - 5)).map
        fun i => ⟨1, i, .normal, [i]⟩ := by
  have hruns : Runs (fun i => ⟨1, i, .normal, [i]⟩) 5
      [⟨none, (List.range' 4 5).map fun i => ⟨1, i, .normal, [i]⟩⟩,
        ⟨none, (List.range' 8 3).map fun i => ⟨1, i, .normal, [i]⟩⟩] :=
    by
    unfold Runs Runs
    exact ⟨(fun _ h => by cases h), 4, 5, rfl, by decide, by decide, by decide,
      (fun _ h => by cases h), 8, 3, rfl, by decide, by decide, by decide, trivial⟩
  have hsm : smoothEnv.Smooth bootstrapCluster.raftId := by
    unfold Env.Smooth
    exact ⟨fun _ _ => rfl, fun _ => ⟨(fun h => by cases h), (fun h => by cases h)⟩⟩
  have hbelow : ∀ rd ∈ [(⟨none, (List.range' 4 5).map fun i => ⟨1, i, .normal, [i]⟩⟩ : Ready),
      ⟨none, (List.range' 8 3).map fun i => ⟨1, i, .normal, [i]⟩⟩], rd.Below := by
    intro rd hrd
    simp only [List.mem_cons, List.mem_nil_iff, or_false] at hrd
    rcases hrd with rfl | rfl <;> exact ⟨(fun _ h => by cases h), by decide⟩
  exact ⟨hruns, hsm, hbelow,
    ((entries_applied_once_in_order smoothEnv (fun i => ⟨1, i, .normal, [i]⟩) (fun _ => rfl) 5
      (by decide) bootstrapCluster _ hruns).2 hsm (by decide) hbelow).2.2 (by simp)⟩

/-- Applied index 5, then a `Ready` with a snapshot at 10 and the committed entries 6 to 12: the
entries 6 to 10, committed and above the initial applied index, are never passed to the apply
switch; only 11 and 12 are. -/
theorem snapshot_skips_committed_entries :
    entriesOf (ApplyState.run smoothEnv ⟨5, [], bootstrapCluster, false, none⟩
        [⟨some 10, (List.range' 6 7).map fun i => ⟨1, i, .normal, [i]⟩⟩]).log =
      [⟨1, 11, .normal, [11]⟩, ⟨1, 12, .normal, [12]⟩] := by
  decide

end QuorumHotstuff.Raft
