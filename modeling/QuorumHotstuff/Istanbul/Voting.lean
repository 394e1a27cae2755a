import Mathlib
import QuorumHotstuff.Istanbul.Types

/-!
# The validator vote of the Istanbul backend

`backend/snapshot.go` and `snapApply`/`snapApplyHeader` of `backend/engine.go`: each header's
author, a validator, votes in it to add an account to the validator set or to remove one.  The
snapshot keeps the votes cast since the last checkpoint and, to avoid recounting them, a tally per
account; a tally that passes half the validators changes the set, and every vote about the account
goes.  A validator that is removed takes its votes with it.

The tally is a cache of the votes, and stays one over every run (`Consistent`,
`snapApply_consistent`): for each account it holds the number of recorded votes on it, all in the
direction that changes its membership, each validator with at most one vote per account, every
voter a validator.  So every change of the validator set is approved by strictly more than half of
the validators of the set it changes, each with its own vote for exactly that change
(`snapApplyHeader_majority`).

A header is read through the engine of its block number (`Engine`): its number, hash, author and
vote, each of the last two a value or the engine's error.  The validator set is sorted by the
policy's sort, an in-place sort and so a permutation (`Sorter`).
-/

namespace QuorumHotstuff.Istanbul

/-- `Vote`. -/
structure Vote where
  validator : Address
  block : Nat
  address : Address
  authorize : Bool
deriving DecidableEq, Repr

/-- `Tally`. -/
structure Tally where
  authorize : Bool
  votes : Nat
deriving DecidableEq, Repr

/-- `ValidatorSortByFunc.Sort`, which sorts the slice in place: a permutation. -/
structure Sorter where
  sort : List Address → List Address
  perm : ∀ l, (sort l).Perm l

/-- `ValidatorSortByByte`: the addresses' big-endian bytes compared, which is their order as
    numbers. -/
def sortByByte : Sorter := ⟨fun l => l.mergeSort fun a b => decide (a ≤ b), fun l => List.mergeSort_perm l _⟩

namespace ValidatorSet

/-- `AddValidator`: a new address goes in, and the set is sorted again. -/
def addValidator (sorter : Sorter) (vs : ValidatorSet) (address : Address) : ValidatorSet × Bool :=
  if address ∈ vs.validators then (vs, false)
  else ({ vs with validators := sorter.sort (vs.validators ++ [address]) }, true)

/-- `RemoveValidator`: the first entry of the address goes. -/
def removeValidator (vs : ValidatorSet) (address : Address) : ValidatorSet × Bool :=
  if address ∈ vs.validators then ({ vs with validators := vs.validators.erase address }, true)
  else (vs, false)

end ValidatorSet

/-- `Snapshot`: the votes in the order they were cast, the tally per account, and the validators. -/
structure Snapshot where
  epoch : Nat
  number : Nat
  hash : Hash
  votes : List Vote
  tally : Address → Option Tally
  valSet : ValidatorSet

/-- `newSnapshot`: no votes. -/
def newSnapshot (epoch number : Nat) (hash : Hash) (valSet : ValidatorSet) : Snapshot :=
  ⟨epoch, number, hash, [], fun _ => none, valSet⟩

/-- What `snapApplyHeader` reads of a header, through the engine of its block number. -/
structure Engine (H ε : Type) where
  number : H → Nat
  hash : H → Hash
  author : H → Except ε Address
  readVote : H → Except ε (Address × Bool)

/-- An engine for headers that carry their number, author and vote in the clear, the number
    standing for the hash too. -/
def clearEngine : Engine (Nat × Address × Address × Bool) Unit :=
  ⟨fun h => h.1, fun h => h.1, fun h => .ok h.2.1, fun h => .ok h.2.2⟩

/-- The errors of `snapApply`: the engine's, passed on, and the two of its own. -/
inductive SnapError (ε : Type) where
  /-- `ErrInvalidVotingChain`: the headers do not follow one another and the snapshot. -/
  | invalidVotingChain
  /-- `ErrUnauthorized`: the header's author is not a validator. -/
  | unauthorized
  | engine (err : ε)
deriving DecidableEq, Repr

namespace Snapshot

/-- `checkVote`: a vote to remove a validator or to add an account that is not one. -/
def checkVote (s : Snapshot) (address : Address) (authorize : Bool) : Bool :=
  ((s.valSet.getByAddress address).isSome && !authorize) ||
    ((s.valSet.getByAddress address).isNone && authorize)

/-- `cast`: one more vote on the account, in the tally's direction when there is one. -/
def cast (s : Snapshot) (address : Address) (authorize : Bool) : Snapshot × Bool :=
  if !s.checkVote address authorize then (s, false)
  else
    match s.tally address with
    | some old =>
      ({ s with tally := Function.update s.tally address (some { old with votes := old.votes + 1 }) },
        true)
    | none => ({ s with tally := Function.update s.tally address (some ⟨authorize, 1⟩) }, true)

/-- `uncast`: one vote fewer, the tally gone with its last vote; nothing for a dangling vote. -/
def uncast (s : Snapshot) (address : Address) (authorize : Bool) : Snapshot × Bool :=
  match s.tally address with
  | none => (s, false)
  | some tally =>
    if tally.authorize ≠ authorize then (s, false)
    else if tally.votes > 1 then
      ({ s with tally := Function.update s.tally address (some { tally with votes := tally.votes - 1 }) },
        true)
    else ({ s with tally := Function.update s.tally address none }, true)

/-! The pieces of `snapApplyHeader`. -/

/-- A checkpoint block clears the votes and the tally. -/
def checkpoint (s : Snapshot) (number : Nat) : Snapshot :=
  if number % s.epoch = 0 then { s with votes := [], tally := fun _ => none } else s

/-- The first vote of `validator` on `candidate`, uncast and dropped (the loop that breaks at the
    first match). -/
def discardVote (s : Snapshot) (validator candidate : Address) : Snapshot :=
  match s.votes.find? (fun v => v.validator == validator && v.address == candidate) with
  | none => s
  | some vote =>
    { (s.uncast vote.address vote.authorize).1 with
      votes := s.votes.eraseP fun v => v.validator == validator && v.address == candidate }

/-- The votes a removed validator cast, each uncast in turn and dropped. -/
def discardVotesBy (s : Snapshot) (validator : Address) : Snapshot :=
  { s.votes.foldl (fun s' v => if v.validator = validator then (s'.uncast v.address v.authorize).1
                               else s') s with
    votes := s.votes.filter fun v => v.validator ≠ validator }

/-- A tally above half the validators adds its account or removes it (with the votes it cast);
    then every vote on the account goes, and its tally. -/
def applyTally (sorter : Sorter) (s : Snapshot) (candidate : Address) : Snapshot :=
  match s.tally candidate with
  | none => s
  | some tally =>
    if tally.votes > s.valSet.size / 2 then
      let s := if tally.authorize then { s with valSet := (s.valSet.addValidator sorter candidate).1 }
        else ({ s with valSet := (s.valSet.removeValidator candidate).1 }).discardVotesBy candidate
      { s with votes := s.votes.filter (fun v => v.address ≠ candidate),
               tally := Function.update s.tally candidate none }
    else s

/-- The new vote cast and, if it counts, recorded. -/
def recordVote (s : Snapshot) (number : Nat) (validator candidate : Address) (authorize : Bool) :
    Snapshot :=
  let r := s.cast candidate authorize
  if r.2 then { r.1 with votes := r.1.votes ++ [⟨validator, number, candidate, authorize⟩] } else r.1

/-- An authorized header's vote: the author's earlier vote on the candidate goes, the new one is
    cast and recorded, then the candidate's tally is applied. -/
def applyVote (sorter : Sorter) (s : Snapshot) (number : Nat) (validator candidate : Address)
    (authorize : Bool) : Snapshot :=
  (((s.discardVote validator candidate).recordVote number validator candidate authorize)).applyTally
    sorter candidate

end Snapshot

open Snapshot

variable {H ε : Type}

/-- `snapApplyHeader`; `none` where `number % snap.Epoch` panics on a zero epoch. -/
def snapApplyHeader (E : Engine H ε) (sorter : Sorter) (snap : Snapshot) (header : H) :
    Option (Except (SnapError ε) Snapshot) :=
  if snap.epoch = 0 then none
  else
    let snap := snap.checkpoint (E.number header)
    some <| match E.author header with
    | .error err => .error (.engine err)
    | .ok validator =>
      if (snap.valSet.getByAddress validator).isNone then .error .unauthorized
      else
        match E.readVote header with
        | .error err => .error (.engine err)
        | .ok (candidate, authorize) =>
          .ok (snap.applyVote sorter (E.number header) validator candidate authorize)

/-- The loop of `snapApply` over the headers, stopped by the first error or panic. -/
def applyHeaders (E : Engine H ε) (sorter : Sorter) :
    Snapshot → List H → Option (Except (SnapError ε) Snapshot)
  | snap, [] => some (.ok snap)
  | snap, header :: headers =>
    match snapApplyHeader E sorter snap header with
    | none => none
    | some (.error err) => some (.error err)
    | some (.ok snap) => applyHeaders E sorter snap headers

/-- The sanity check of `snapApply`: each header's number follows the one before. -/
def chained (E : Engine H ε) : List H → Bool
  | h₁ :: h₂ :: headers => E.number h₂ == u64 (E.number h₁ + 1) && chained E (h₂ :: headers)
  | _ => true

/-- `snapApply`: the headers applied to a copy, which then stands at the last header. -/
def snapApply (E : Engine H ε) (sorter : Sorter) (snap : Snapshot) (headers : List H) :
    Option (Except (SnapError ε) Snapshot) :=
  match headers.head?, headers.getLast? with
  | some first, some last =>
    if !chained E headers || E.number first != u64 (snap.number + 1) then
      some (.error .invalidVotingChain)
    else
      (applyHeaders E sorter snap headers).map fun r =>
        r.map fun s => { s with number := u64 (s.number + headers.length), hash := E.hash last }
  | _, _ => some (.ok snap)

/-! ## The tally counts the votes -/

/-- The votes recorded on `a`. -/
def votesOn (votes : List Vote) (a : Address) : Nat := votes.countP fun v => v.address = a

/-- The validators with a vote on `c`. -/
def votersOn (votes : List Vote) (c : Address) : List Address :=
  (votes.filter fun v => v.address = c).map Vote.validator

/-- A tally that counts the votes: nothing for an account without votes, else their number and the
    direction `dir` gives the account. -/
def Counts (tally : Address → Option Tally) (votes : List Vote) (dir : Address → Bool) : Prop :=
  ∀ a, tally a = if votesOn votes a = 0 then none else some ⟨dir a, votesOn votes a⟩

/-- Every vote goes the direction `dir` gives its account. -/
def Directed (votes : List Vote) (dir : Address → Bool) : Prop :=
  ∀ v ∈ votes, v.authorize = dir v.address

theorem votesOn_cons (v : Vote) (votes : List Vote) (a : Address) :
    votesOn (v :: votes) a = votesOn votes a + if v.address = a then 1 else 0 := by
  simp [votesOn, List.countP_cons]

theorem votesOn_append_singleton (votes : List Vote) (v : Vote) (a : Address) :
    votesOn (votes ++ [v]) a = votesOn votes a + if v.address = a then 1 else 0 := by
  simp [votesOn, List.countP_append]

section Counting

variable {votes votes' : List Vote} {dir : Address → Bool} {tally : Address → Option Tally}

theorem Counts.perm (h : Counts tally votes dir) (hp : votes.Perm votes') :
    Counts tally votes' dir := by
  intro a
  have hcount : votesOn votes' a = votesOn votes a := (hp.countP_eq _).symm
  rw [hcount]
  exact h a

/-- Uncasting a recorded vote in the tally's direction counts the votes without it. -/
theorem Counts.uncast {s : Snapshot} {v : Vote} (h : Counts s.tally (v :: votes) dir)
    (hv : v.authorize = dir v.address) : Counts (s.uncast v.address v.authorize).1.tally votes dir := by
  have hv0 := h v.address
  rw [votesOn_cons, if_pos rfl, if_neg (Nat.add_one_ne_zero _)] at hv0
  intro a
  unfold Snapshot.uncast
  rw [hv0]
  simp only [hv, ne_eq, not_true_eq_false, if_false]
  by_cases ha : a = v.address
  · subst ha
    rcases Nat.eq_zero_or_pos (votesOn votes v.address) with h0 | hpos
    · rw [if_neg (by omega), h0, if_pos rfl]
      simp
    · rw [if_pos (by omega), if_neg (by omega)]
      simp
  · have hrest := h a
    rw [votesOn_cons, if_neg (Ne.symm ha), Nat.add_zero] at hrest
    rw [← hrest]
    split <;> simp only [Function.update_of_ne ha]

theorem Counts.some_iff (h : Counts tally votes dir) {a : Address} {t : Tally} :
    tally a = some t ↔ votesOn votes a ≠ 0 ∧ t = ⟨dir a, votesOn votes a⟩ := by
  rw [h a]
  split_ifs with h0 <;> simp [h0, eq_comm]

theorem Counts.none_iff (h : Counts tally votes dir) {a : Address} :
    tally a = none ↔ votesOn votes a = 0 := by
  rw [h a]
  split_ifs with h0 <;> simp [h0]

/-- Casting a vote that `checkVote` accepts, in the direction `dir` gives, counts it. -/
theorem Counts.cast {s : Snapshot} {a : Address} {authorize : Bool} (h : Counts s.tally votes dir)
    (hd : dir a = authorize) (hcheck : s.checkVote a authorize = true) (v : Vote)
    (hva : v.address = a) : Counts (s.cast a authorize).1.tally (votes ++ [v]) dir := by
  intro b
  unfold Snapshot.cast
  simp only [hcheck, Bool.not_true, Bool.false_eq_true, if_false]
  rw [votesOn_append_singleton]
  by_cases hb : b = a
  · subst hb
    rw [if_pos hva]
    cases ht : s.tally b with
    | none =>
      have h0 : votesOn votes b = 0 := h.none_iff.mp ht
      simp [h0, hd]
    | some old =>
      obtain ⟨h0, rfl⟩ := h.some_iff.mp ht
      simp
  · have hva' : ¬v.address = b := by rw [hva]; exact Ne.symm hb
    rw [if_neg hva', Nat.add_zero, ← h b]
    split <;> simp only [Function.update_of_ne hb]

/-- Dropping every vote on `c` and its tally counts the rest. -/
theorem Counts.dropAccount (h : Counts tally votes dir) (c : Address) :
    Counts (Function.update tally c none) (votes.filter fun v => v.address ≠ c) dir := by
  intro a
  by_cases ha : a = c
  · subst ha
    have h0 : votesOn (votes.filter fun v => v.address ≠ a) a = 0 := by
      simp [votesOn, List.countP_filter]
    rw [Function.update_self, h0, if_pos rfl]
  · have hsame : votesOn (votes.filter fun v => v.address ≠ c) a = votesOn votes a := by
      simp only [votesOn, List.countP_filter]
      congr 1
      funext v
      by_cases hv : v.address = a
      · simp [hv, ha]
      · simp [hv]
    rw [Function.update_of_ne ha, hsame, h a]

/-- The tally only reads the direction of accounts with votes. -/
theorem Counts.congr_dir (h : Counts tally votes dir) {dir' : Address → Bool}
    (hdir : ∀ a, votesOn votes a ≠ 0 → dir a = dir' a) : Counts tally votes dir' := by
  intro a
  rw [h a]
  split_ifs with h0
  · rfl
  · rw [hdir a h0]

/-- Uncasting in turn the votes of `validator` among `l`, all in their direction, counts the
    votes without them. -/
theorem Counts.foldl_uncast (validator : Address) :
    ∀ (l keep : List Vote) (s : Snapshot), Counts s.tally (keep ++ l) dir → Directed l dir →
      Counts (l.foldl (fun s' v => if v.validator = validator then (s'.uncast v.address v.authorize).1
                                   else s') s).tally
        (keep ++ l.filter fun v => v.validator ≠ validator) dir
  | [], keep, s, h, _ => by simpa using h
  | v :: l, keep, s, h, hd => by
    have hdl : Directed l dir := fun w hw => hd w (List.mem_cons_of_mem v hw)
    rw [List.foldl_cons]
    by_cases hv : v.validator = validator
    · -- the vote is uncast: the tally counts the others
      rw [if_pos hv, List.filter_cons_of_neg (by simpa using hv)]
      exact Counts.foldl_uncast validator l keep _
        ((h.perm List.perm_middle).uncast (hd v List.mem_cons_self)) hdl
    · -- the vote stays, and joins those kept
      rw [if_neg hv, List.filter_cons_of_pos (by simpa using hv)]
      have hrest := Counts.foldl_uncast validator l (keep ++ [v]) s (by simpa using h) hdl
      simpa using hrest

end Counting

/-- `find?` picks out an element that `eraseP` removes. -/
theorem perm_cons_eraseP_of_find? {α : Type} {p : α → Bool} :
    ∀ {l : List α} {a : α}, l.find? p = some a → l.Perm (a :: l.eraseP p)
  | [], _, h => by cases h
  | b :: l, a, h => by
    by_cases hb : p b
    · rw [List.find?_cons_of_pos hb, Option.some_inj] at h
      subst h
      rw [List.eraseP_cons_of_pos hb]
    · rw [List.find?_cons_of_neg hb] at h
      rw [List.eraseP_cons_of_neg hb]
      exact ((perm_cons_eraseP_of_find? h).cons b).trans (List.Perm.swap a b _)

/-! ## The snapshot invariant -/

namespace Snapshot

/-- The direction a vote on `a` counts in: to add it when it is not a validator, else to remove
    it. -/
def direction (s : Snapshot) (a : Address) : Bool := decide (a ∉ s.valSet.validators)

/-- What every snapshot of a run keeps: the tally counts the votes, each in the direction that
    changes its account's membership; a validator votes at most once on an account; and every voter
    is a validator. -/
structure Consistent (s : Snapshot) : Prop where
  nodup : (s.votes.map fun v => (v.validator, v.address)).Nodup
  voters : ∀ v ∈ s.votes, v.validator ∈ s.valSet.validators
  directed : Directed s.votes s.direction
  counts : Counts s.tally s.votes s.direction

theorem checkVote_eq_true_iff (s : Snapshot) (a : Address) (authorize : Bool) :
    s.checkVote a authorize = true ↔ authorize = s.direction a := by
  unfold checkVote direction ValidatorSet.getByAddress
  by_cases ha : a ∈ s.valSet.validators <;> cases authorize <;> simp [ha]

@[simp] theorem uncast_valSet (s : Snapshot) (a : Address) (authorize : Bool) :
    (s.uncast a authorize).1.valSet = s.valSet := by
  unfold uncast
  split
  · rfl
  · split_ifs <;> rfl

@[simp] theorem uncast_votes (s : Snapshot) (a : Address) (authorize : Bool) :
    (s.uncast a authorize).1.votes = s.votes := by
  unfold uncast
  split
  · rfl
  · split_ifs <;> rfl

/-- A snapshot without votes or tallies is consistent. -/
theorem consistent_of_nil {s : Snapshot} (hvotes : s.votes = []) (htally : s.tally = fun _ => none) :
    s.Consistent := by
  refine ⟨by simp [hvotes], fun v hv => by simp [hvotes] at hv, fun v hv => by simp [hvotes] at hv,
    fun a => ?_⟩
  simp [hvotes, htally, votesOn]

theorem consistent_newSnapshot (epoch number : Nat) (hash : Hash) (valSet : ValidatorSet) :
    (newSnapshot epoch number hash valSet).Consistent :=
  consistent_of_nil rfl rfl

theorem Consistent.checkpoint {s : Snapshot} (h : s.Consistent) (number : Nat) :
    (s.checkpoint number).Consistent := by
  unfold Snapshot.checkpoint
  split_ifs
  · exact consistent_of_nil rfl rfl
  · exact h

/-- The author's earlier vote on the candidate goes: the snapshot stays consistent over the same
    validators, with fewer votes and none of the author's on the candidate. -/
theorem Consistent.discardVote {s : Snapshot} (h : s.Consistent) (validator candidate : Address) :
    (s.discardVote validator candidate).Consistent ∧
      (s.discardVote validator candidate).valSet = s.valSet ∧
      (s.discardVote validator candidate).votes ⊆ s.votes ∧
      ∀ v ∈ (s.discardVote validator candidate).votes,
        ¬(v.validator = validator ∧ v.address = candidate) := by
  unfold Snapshot.discardVote
  cases hf : s.votes.find? (fun v => v.validator == validator && v.address == candidate) with
  | none =>
    refine ⟨h, rfl, List.Subset.refl _, fun v hv hmatch => ?_⟩
    have hno := List.find?_eq_none.mp hf v hv
    simp [hmatch] at hno
  | some vote =>
    have hp : vote.validator = validator ∧ vote.address = candidate := by
      simpa using List.find?_some hf
    have hperm := perm_cons_eraseP_of_find? hf
    have hsub : (s.votes.eraseP fun v => v.validator == validator && v.address == candidate).Sublist
        s.votes := List.eraseP_sublist
    have hmem : vote ∈ s.votes := List.mem_of_find?_eq_some hf
    have hdir : s.direction = ({ (s.uncast vote.address vote.authorize).1 with
        votes := s.votes.eraseP fun v => v.validator == validator && v.address == candidate } :
          Snapshot).direction := by
      funext a
      simp [direction]
    refine ⟨⟨h.nodup.sublist (hsub.map _), fun v hv => ?_, ?_, ?_⟩, by simp, hsub.subset,
      fun v hv hmatch => ?_⟩
    · simpa using h.voters v (hsub.subset hv)
    · rw [← hdir]
      exact fun v hv => h.directed v (hsub.subset hv)
    · rw [← hdir]
      exact (h.counts.perm hperm).uncast (h.directed vote hmem)
    · -- the author's one vote on the candidate was the one dropped
      have hnodup := (hperm.map fun v => (v.validator, v.address)).nodup_iff.mp h.nodup
      rw [List.map_cons, List.nodup_cons] at hnodup
      exact hnodup.1 (List.mem_map.mpr ⟨v, hv, by rw [hmatch.1, hmatch.2, hp.1, hp.2]⟩)

@[simp] theorem cast_valSet (s : Snapshot) (a : Address) (authorize : Bool) :
    (s.cast a authorize).1.valSet = s.valSet := by
  unfold cast
  split_ifs
  · rfl
  · split <;> rfl

@[simp] theorem cast_votes (s : Snapshot) (a : Address) (authorize : Bool) :
    (s.cast a authorize).1.votes = s.votes := by
  unfold cast
  split_ifs
  · rfl
  · split <;> rfl

@[simp] theorem discardVote_valSet (s : Snapshot) (validator candidate : Address) :
    (s.discardVote validator candidate).valSet = s.valSet := by
  unfold discardVote
  split
  · rfl
  · exact uncast_valSet s _ _

@[simp] theorem recordVote_valSet (s : Snapshot) (number : Nat) (validator candidate : Address)
    (authorize : Bool) : (s.recordVote number validator candidate authorize).valSet = s.valSet := by
  unfold recordVote
  dsimp only
  split_ifs <;> exact cast_valSet s _ _

/-- A vote `checkVote` accepts is recorded after the others. -/
theorem recordVote_of_checkVote {s : Snapshot} {candidate : Address} {authorize : Bool}
    (hcheck : s.checkVote candidate authorize = true) (number : Nat) (validator : Address) :
    s.recordVote number validator candidate authorize =
      { (s.cast candidate authorize).1 with
        votes := s.votes ++ [⟨validator, number, candidate, authorize⟩] } := by
  have hsnd : (s.cast candidate authorize).2 = true := by
    unfold cast
    simp only [hcheck, Bool.not_true, Bool.false_eq_true, if_false]
    split <;> rfl
  simp only [recordVote, hsnd, if_true, cast_votes]

/-- A vote `checkVote` refuses changes nothing. -/
theorem recordVote_of_not_checkVote {s : Snapshot} {candidate : Address} {authorize : Bool}
    (hcheck : s.checkVote candidate authorize = false) (number : Nat) (validator : Address) :
    s.recordVote number validator candidate authorize = s := by
  simp [recordVote, cast, hcheck]

/-- The new vote, from a validator with no vote left on the candidate, cast and recorded if
    `checkVote` accepts it. -/
theorem Consistent.recordVote {s : Snapshot} (h : s.Consistent) (number : Nat)
    {validator candidate : Address} (authorize : Bool)
    (hval : validator ∈ s.valSet.validators)
    (hfresh : ∀ v ∈ s.votes, ¬(v.validator = validator ∧ v.address = candidate)) :
    (s.recordVote number validator candidate authorize).Consistent ∧
      (s.recordVote number validator candidate authorize).valSet = s.valSet ∧
      (s.recordVote number validator candidate authorize).votes ⊆
        s.votes ++ [⟨validator, number, candidate, authorize⟩] := by
  cases hcheck : s.checkVote candidate authorize with
  | false =>
    rw [recordVote_of_not_checkVote hcheck]
    exact ⟨h, rfl, List.subset_append_left _ _⟩
  | true =>
    have hd : authorize = s.direction candidate :=
      (checkVote_eq_true_iff s candidate authorize).mp hcheck
    rw [recordVote_of_checkVote hcheck]
    have hdir : s.direction = ({ (s.cast candidate authorize).1 with
        votes := s.votes ++ [⟨validator, number, candidate, authorize⟩] } : Snapshot).direction := by
      funext a
      simp [direction]
    refine ⟨⟨?_, fun v hv => ?_, ?_, ?_⟩, by simp, List.Subset.refl _⟩
    · -- the author had no vote left on the candidate
      simp only [List.map_append, List.map_cons, List.map_nil]
      refine List.nodup_append.mpr ⟨h.nodup, List.nodup_singleton _, ?_⟩
      rintro p hp q hq rfl
      obtain ⟨w, hw, hwp⟩ := List.mem_map.mp hp
      rw [List.mem_singleton] at hq
      rw [hq, Prod.mk.injEq] at hwp
      exact hfresh w hw hwp
    · simp only [cast_valSet]
      rcases List.mem_append.mp hv with hv | hv
      · exact h.voters v hv
      · rw [List.mem_singleton.mp hv]
        exact hval
    · rw [← hdir]
      intro v hv
      rcases List.mem_append.mp hv with hv | hv
      · exact h.directed v hv
      · rw [List.mem_singleton.mp hv]
        exact hd
    · rw [← hdir]
      exact h.counts.cast hd.symm hcheck _ rfl

theorem foldl_uncast_valSet (validator : Address) :
    ∀ (l : List Vote) (s : Snapshot),
      (l.foldl (fun s' v => if v.validator = validator then (s'.uncast v.address v.authorize).1
                            else s') s).valSet = s.valSet
  | [], _ => rfl
  | v :: l, s => by
    rw [List.foldl_cons, foldl_uncast_valSet validator l]
    split_ifs
    · exact uncast_valSet s _ _
    · rfl

@[simp] theorem discardVotesBy_valSet (s : Snapshot) (validator : Address) :
    (s.discardVotesBy validator).valSet = s.valSet :=
  foldl_uncast_valSet validator s.votes s

theorem ValidatorSet.mem_addValidator {sorter : Sorter} {vs : ValidatorSet} {c : Address}
    (hc : c ∉ vs.validators) (x : Address) :
    x ∈ (vs.addValidator sorter c).1.validators ↔ x ∈ vs.validators ∨ x = c := by
  simp only [ValidatorSet.addValidator, if_neg hc]
  rw [(sorter.perm _).mem_iff, List.mem_append, List.mem_singleton]

/-- A snapshot that drops every vote on `c` and its tally, from votes and a tally that count each
    other in a direction that agrees with its validators away from `c`, and whose voters are
    validators, is consistent. -/
theorem consistent_of_dropAccount {s : Snapshot} {votes : List Vote}
    {tally : Address → Option Tally} {dir : Address → Bool} {c : Address}
    (hvotes : s.votes = votes.filter fun v => v.address ≠ c)
    (htally : s.tally = Function.update tally c none)
    (hnodup : (votes.map fun v => (v.validator, v.address)).Nodup)
    (hvoters : ∀ v ∈ s.votes, v.validator ∈ s.valSet.validators)
    (hdirected : Directed votes dir) (hcounts : Counts tally votes dir)
    (hdir : ∀ a, a ≠ c → dir a = s.direction a) : s.Consistent := by
  have hmem : ∀ v ∈ s.votes, v ∈ votes ∧ v.address ≠ c := fun v hv => by
    rw [hvotes, List.mem_filter] at hv
    exact ⟨hv.1, by simpa using hv.2⟩
  refine ⟨?_, hvoters, fun v hv => ?_, ?_⟩
  · rw [hvotes]
    exact hnodup.sublist (List.filter_sublist.map _)
  · rw [hdirected v (hmem v hv).1, hdir _ (hmem v hv).2]
  · rw [htally, hvotes]
    refine (hcounts.dropAccount c).congr_dir fun a ha => hdir a fun hac => ha ?_
    subst hac
    simp [votesOn, List.countP_filter]

/-- A passing tally adds or removes its account; the snapshot stays consistent. -/
theorem Consistent.applyTally {s : Snapshot} (h : s.Consistent) (sorter : Sorter)
    (candidate : Address) : (s.applyTally sorter candidate).Consistent := by
  unfold Snapshot.applyTally
  cases ht : s.tally candidate with
  | none => exact h
  | some t =>
    obtain ⟨-, rfl⟩ := h.counts.some_iff.mp ht
    dsimp only
    split_ifs with hpass hauth
    · -- added: the validators grow by the candidate, on which no vote is left
      have hc : candidate ∉ s.valSet.validators := by simpa [direction] using hauth
      refine consistent_of_dropAccount rfl rfl h.nodup (fun v hv => ?_) h.directed h.counts
        fun a ha => ?_
      · have hv' := (List.mem_filter.mp hv).1
        exact (ValidatorSet.mem_addValidator hc _).mpr (.inl (h.voters v hv'))
      · simp only [direction, ValidatorSet.mem_addValidator hc, ha, or_false]
    · -- removed: its votes go, uncast, then every vote on it
      have hc : candidate ∈ s.valSet.validators := by simpa [direction] using hauth
      have hcounts := Counts.foldl_uncast candidate s.votes []
        { s with valSet := (s.valSet.removeValidator candidate).1 } (by simpa using h.counts)
        h.directed
      rw [List.nil_append] at hcounts
      refine consistent_of_dropAccount rfl rfl
        (h.nodup.sublist (List.filter_sublist.map _))
        (fun v hv => ?_) (fun v hv => h.directed v (List.mem_filter.mp hv).1) hcounts
        fun a ha => ?_
      · obtain ⟨hv₁, hv₂⟩ := List.mem_filter.mp hv
        obtain ⟨hv₃, hv₄⟩ := List.mem_filter.mp hv₁
        simp only [discardVotesBy_valSet, ValidatorSet.removeValidator, if_pos hc]
        exact (List.mem_erase_of_ne (by simpa using hv₄)).mpr (h.voters v hv₃)
      · simp only [direction, discardVotesBy_valSet, ValidatorSet.removeValidator, if_pos hc,
          List.mem_erase_of_ne ha]
    · exact h

/-- What `applyTally` does to the validators: nothing; or, with more than half of them voting on
    the candidate, the candidate added or removed. -/
theorem Consistent.applyTally_valSet {s : Snapshot} (h : s.Consistent) (sorter : Sorter)
    (candidate : Address) :
    (s.applyTally sorter candidate).valSet = s.valSet ∨
      (s.valSet.size < 2 * votesOn s.votes candidate ∧
        ((candidate ∉ s.valSet.validators ∧
            (s.applyTally sorter candidate).valSet.validators.Perm
              (s.valSet.validators ++ [candidate])) ∨
          (candidate ∈ s.valSet.validators ∧
            (s.applyTally sorter candidate).valSet.validators =
              s.valSet.validators.erase candidate))) := by
  unfold Snapshot.applyTally
  cases ht : s.tally candidate with
  | none => exact .inl rfl
  | some t =>
    obtain ⟨-, rfl⟩ := h.counts.some_iff.mp ht
    dsimp only
    split_ifs with hpass hauth
    · have hc : candidate ∉ s.valSet.validators := by simpa [direction] using hauth
      refine .inr ⟨by omega, .inl ⟨hc, ?_⟩⟩
      simp only [ValidatorSet.addValidator, if_neg hc]
      exact sorter.perm _
    · have hc : candidate ∈ s.valSet.validators := by simpa [direction] using hauth
      refine .inr ⟨by omega, .inr ⟨hc, ?_⟩⟩
      simp [ValidatorSet.removeValidator, hc]
    · exact .inl rfl

/-- The validators voting on `c` are as many as the votes on it, each once, each a validator of the
    set, each voting in `c`'s direction. -/
theorem Consistent.votersOn_spec {s : Snapshot} (h : s.Consistent) (c : Address) :
    (votersOn s.votes c).Nodup ∧ (votersOn s.votes c).length = votesOn s.votes c ∧
      ∀ x ∈ votersOn s.votes c, x ∈ s.valSet.validators ∧
        ∃ v ∈ s.votes, v.validator = x ∧ v.address = c ∧ v.authorize = s.direction c := by
  refine ⟨?_, by simp [Istanbul.votersOn, votesOn, List.countP_eq_length_filter], fun x hx => ?_⟩
  · -- the pairs of validator and account are distinct, and the account is `c` throughout
    have hsub : (s.votes.filter fun v : Vote => v.address = c).Sublist s.votes := List.filter_sublist
    have hpairs := h.nodup.sublist (hsub.map fun v : Vote => (v.validator, v.address))
    have hmap : (s.votes.filter fun v : Vote => v.address = c).map
        (fun v : Vote => (v.validator, v.address)) =
        (Istanbul.votersOn s.votes c).map fun x => (x, c) := by
      rw [Istanbul.votersOn, List.map_map]
      refine List.map_congr_left fun v hv => ?_
      simp only [Function.comp, Prod.mk.injEq, true_and]
      simpa using (List.mem_filter.mp hv).2
    rw [hmap] at hpairs
    exact hpairs.of_map _
  · obtain ⟨v, hv, rfl⟩ := List.mem_map.mp hx
    obtain ⟨hv₁, hv₂⟩ := List.mem_filter.mp hv
    have hvc : v.address = c := by simpa using hv₂
    refine ⟨h.voters v hv₁, v, hv₁, rfl, hvc, ?_⟩
    rw [h.directed v hv₁, hvc]

@[simp] theorem checkpoint_valSet (s : Snapshot) (number : Nat) :
    (s.checkpoint number).valSet = s.valSet := by
  unfold Snapshot.checkpoint
  split_ifs <;> rfl

theorem checkpoint_votes_subset (s : Snapshot) (number : Nat) :
    (s.checkpoint number).votes ⊆ s.votes := by
  unfold Snapshot.checkpoint
  split_ifs
  · exact List.nil_subset _
  · exact List.Subset.refl _

/-- The vote of an authorized header keeps the snapshot consistent. Before its tally is applied,
    the votes are those of the snapshot and the header's, over the same validators. -/
theorem Consistent.applyVote {s : Snapshot} (h : s.Consistent) (sorter : Sorter) (number : Nat)
    {validator : Address} (candidate : Address) (authorize : Bool)
    (hval : validator ∈ s.valSet.validators) :
    let s₃ := (s.discardVote validator candidate).recordVote number validator candidate authorize
    s₃.Consistent ∧ s₃.valSet = s.valSet ∧
      s₃.votes ⊆ s.votes ++ [⟨validator, number, candidate, authorize⟩] ∧
      s₃.applyTally sorter candidate = s.applyVote sorter number validator candidate authorize := by
  obtain ⟨h₂, hV₂, hsub₂, hfresh⟩ := h.discardVote validator candidate
  obtain ⟨h₃, hV₃, hsub₃⟩ := h₂.recordVote number authorize (hV₂ ▸ hval) hfresh
  refine ⟨h₃, hV₃.trans hV₂, fun v hv => ?_, rfl⟩
  rcases List.mem_append.mp (hsub₃ hv) with hv | hv
  · exact List.mem_append_left _ (hsub₂ hv)
  · exact List.mem_append_right _ hv

end Snapshot

/-! ## Runs of headers -/

/-- What `snapApplyHeader` does when it succeeds: the author is a validator, and its vote is
    applied to the snapshot after the checkpoint. -/
theorem snapApplyHeader_eq_ok {E : Engine H ε} {sorter : Sorter} {s s' : Snapshot} {header : H}
    (h : snapApplyHeader E sorter s header = some (.ok s')) :
    ∃ validator candidate authorize, E.author header = .ok validator ∧
      validator ∈ s.valSet.validators ∧ E.readVote header = .ok (candidate, authorize) ∧
      s' = (s.checkpoint (E.number header)).applyVote sorter (E.number header) validator candidate
        authorize := by
  unfold snapApplyHeader at h
  split_ifs at h
  rw [Option.some_inj] at h
  cases hauthor : E.author header with
  | error err => simp [hauthor] at h
  | ok validator =>
    simp only [hauthor] at h
    split_ifs at h with hnone
    cases hvote : E.readVote header with
    | error err => simp [hvote] at h
    | ok vote =>
      simp only [hvote, Except.ok.injEq] at h
      have hval : validator ∈ s.valSet.validators := by
        simpa [ValidatorSet.getByAddress] using hnone
      exact ⟨validator, vote.1, vote.2, rfl, hval, rfl, h.symm⟩

theorem Snapshot.Consistent.snapApplyHeader {E : Engine H ε} {sorter : Sorter} {s s' : Snapshot}
    {header : H} (hc : s.Consistent) (h : snapApplyHeader E sorter s header = some (.ok s')) :
    s'.Consistent := by
  obtain ⟨validator, candidate, authorize, -, hval, -, rfl⟩ := snapApplyHeader_eq_ok h
  obtain ⟨h₃, -, -, happ⟩ := (hc.checkpoint (E.number header)).applyVote sorter (E.number header)
    candidate authorize (by simpa using hval)
  rw [← happ]
  exact h₃.applyTally sorter candidate

/-- The snapshots a run of headers leaves are consistent. -/
theorem Snapshot.Consistent.applyHeaders {E : Engine H ε} {sorter : Sorter} :
    ∀ (headers : List H) {s s' : Snapshot}, s.Consistent →
      applyHeaders E sorter s headers = some (.ok s') → s'.Consistent
  | [], _, _, hc, h => by
    cases h
    exact hc
  | header :: headers, s, s', hc, h => by
    unfold QuorumHotstuff.Istanbul.applyHeaders at h
    split at h
    · cases h
    · cases h
    · rename_i s₁ h₁
      exact Snapshot.Consistent.applyHeaders headers (hc.snapApplyHeader h₁) h

/-- `snapApply` leaves a consistent snapshot from a consistent one. -/
theorem snapApply_consistent {E : Engine H ε} {sorter : Sorter} {snap s' : Snapshot}
    {headers : List H} (hc : snap.Consistent)
    (h : snapApply E sorter snap headers = some (.ok s')) : s'.Consistent := by
  unfold snapApply at h
  split at h
  · split_ifs at h
    · cases h
    obtain ⟨r, hr, hs'⟩ := Option.map_eq_some_iff.mp h
    cases r with
    | error err => cases hs'
    | ok s₁ =>
      cases hs'
      -- the number and the hash are not the votes' business
      have h₁ := hc.applyHeaders headers hr
      exact ⟨h₁.nodup, h₁.voters, h₁.directed, h₁.counts⟩
  · cases h
    exact hc

theorem snapApply_consistent_removal :
    ∃ s', snapApply clearEngine sortByByte (newSnapshot 30000 0 0 ⟨[1, 2, 3], .roundRobin, none⟩)
      [(1, 1, 3, false), (2, 2, 3, false)] = some (.ok s') ∧ s'.Consistent := by
  have hrun : snapApply clearEngine sortByByte (newSnapshot 30000 0 0 ⟨[1, 2, 3], .roundRobin, none⟩)
      [(1, 1, 3, false), (2, 2, 3, false)] = some (.ok _) := rfl
  exact ⟨_, hrun, snapApply_consistent (consistent_newSnapshot ..) hrun⟩

/-- More than half of the validators of `s` back a change of `c`: each of them once, by its own
    vote in `c`'s direction, recorded in `s` or cast in `header`. -/
def Backed (E : Engine H ε) (s : Snapshot) (header : H) (c : Address) : Prop :=
  ∃ voters : List Address, voters.Nodup ∧ s.valSet.size < 2 * voters.length ∧
    ∀ x ∈ voters, x ∈ s.valSet.validators ∧
      ((E.author header = .ok x ∧ E.readVote header = .ok (c, s.direction c)) ∨
        ∃ v ∈ s.votes, v.validator = x ∧ v.address = c ∧ v.authorize = s.direction c)

/-- `validators'` is `validators` with `c` added, or with `c` removed. -/
def ChangesBy (validators validators' : List Address) (c : Address) : Prop :=
  (c ∉ validators ∧ validators'.Perm (validators ++ [c])) ∨
    (c ∈ validators ∧ validators' = validators.erase c)

/-- A header changes the validators of a consistent snapshot only by one account, and only with
    more than half of them behind the change. -/
theorem Snapshot.Consistent.snapApplyHeader_backed {E : Engine H ε} {sorter : Sorter}
    {s s' : Snapshot} {header : H} (hc : s.Consistent)
    (h : Istanbul.snapApplyHeader E sorter s header = some (.ok s'))
    (hchg : s'.valSet.validators ≠ s.valSet.validators) :
    ∃ c, Backed E s header c ∧ ChangesBy s.valSet.validators s'.valSet.validators c := by
  obtain ⟨validator, candidate, authorize, hauthor, hval, hvote, rfl⟩ := snapApplyHeader_eq_ok h
  obtain ⟨h₃, hV₃, hsub₃, happ⟩ := (hc.checkpoint (E.number header)).applyVote sorter
    (E.number header) candidate authorize (by simpa using hval)
  rw [checkpoint_valSet] at hV₃
  rw [← happ] at hchg ⊢
  -- the snapshot with the header's vote recorded, before its tally is applied
  set s₃ := ((s.checkpoint (E.number header)).discardVote validator candidate).recordVote
    (E.number header) validator candidate authorize
  rcases h₃.applyTally_valSet sorter candidate with hsame | ⟨hmaj, hchange⟩
  · exact absurd (by rw [hsame, hV₃]) hchg
  · -- the voters on the candidate after the header's vote is recorded
    obtain ⟨hnodup, hlen, hvoters⟩ := h₃.votersOn_spec candidate
    have hdir : s₃.direction candidate = s.direction candidate := by
      simp only [Snapshot.direction, hV₃]
    rw [hV₃] at hmaj hchange
    refine ⟨candidate, ⟨_, hnodup, hlen ▸ hmaj, fun x hx => ?_⟩, hchange⟩
    obtain ⟨hxV, v, hv, rfl, hvc, hvdir⟩ := hvoters x hx
    rw [hdir] at hvdir
    refine ⟨hV₃ ▸ hxV, ?_⟩
    rcases List.mem_append.mp (hsub₃ hv) with hold | hnew
    · exact .inr ⟨v, checkpoint_votes_subset s _ hold, rfl, hvc, hvdir⟩
    · -- the header's own vote
      obtain rfl := List.mem_singleton.mp hnew
      exact .inl ⟨hauthor, hvdir ▸ hvote⟩

/-- Over any run of headers from a consistent snapshot, every change of the validator set is by
    one account, with more than half of the validators before it behind the change. -/
theorem applyHeaders_backed {E : Engine H ε} {sorter : Sorter} {s₀ s s' : Snapshot}
    {pre : List H} {header : H} (hc : s₀.Consistent)
    (hpre : applyHeaders E sorter s₀ pre = some (.ok s))
    (h : snapApplyHeader E sorter s header = some (.ok s'))
    (hchg : s'.valSet.validators ≠ s.valSet.validators) :
    ∃ c, Backed E s header c ∧ ChangesBy s.valSet.validators s'.valSet.validators c :=
  (hc.applyHeaders pre hpre).snapApplyHeader_backed h hchg

/-- Two of three validators vote the third out: the second vote removes it. -/
theorem applyHeaders_backed_removal :
    ∃ s s', applyHeaders clearEngine sortByByte (newSnapshot 30000 0 0 ⟨[1, 2, 3], .roundRobin, none⟩)
        [(1, 1, 3, false)] = some (.ok s) ∧
      snapApplyHeader clearEngine sortByByte s (2, 2, 3, false) = some (.ok s') ∧
      s'.valSet.validators ≠ s.valSet.validators ∧
      ∃ c, Backed clearEngine s (2, 2, 3, false) c ∧
        ChangesBy s.valSet.validators s'.valSet.validators c := by
  have hpre : applyHeaders clearEngine sortByByte
      (newSnapshot 30000 0 0 ⟨[1, 2, 3], .roundRobin, none⟩) [(1, 1, 3, false)] = some (.ok _) := rfl
  exact ⟨_, _, hpre, rfl, by decide,
    applyHeaders_backed (consistent_newSnapshot ..) hpre rfl (by decide)⟩

/-! ## Where the snapshot stands

The vote touches the votes, the tally and the validators only: the epoch, the block number and the
hash a snapshot stands at are `snapApply`'s to move. -/

/-- `t` stands where `s` does. -/
structure Snapshot.SamePlace (s t : Snapshot) : Prop where
  epoch : t.epoch = s.epoch
  number : t.number = s.number
  hash : t.hash = s.hash

namespace Snapshot

theorem SamePlace.refl (s : Snapshot) : s.SamePlace s := ⟨rfl, rfl, rfl⟩

theorem SamePlace.trans {s t u : Snapshot} (h₁ : s.SamePlace t) (h₂ : t.SamePlace u) :
    s.SamePlace u :=
  ⟨h₂.epoch.trans h₁.epoch, h₂.number.trans h₁.number, h₂.hash.trans h₁.hash⟩

theorem samePlace_uncast (s : Snapshot) (address : Address) (authorize : Bool) :
    s.SamePlace (s.uncast address authorize).1 := by
  unfold uncast
  split
  · exact .refl s
  · split_ifs <;> exact ⟨rfl, rfl, rfl⟩

theorem samePlace_cast (s : Snapshot) (address : Address) (authorize : Bool) :
    s.SamePlace (s.cast address authorize).1 := by
  unfold cast
  split_ifs
  · exact .refl s
  · split <;> exact ⟨rfl, rfl, rfl⟩

theorem samePlace_foldl_uncast (validator : Address) :
    ∀ (l : List Vote) (s : Snapshot),
      s.SamePlace (l.foldl (fun s' v => if v.validator = validator
                                          then (s'.uncast v.address v.authorize).1 else s') s)
  | [], s => .refl s
  | v :: l, s => by
    rw [List.foldl_cons]
    refine SamePlace.trans ?_ (samePlace_foldl_uncast validator l _)
    split_ifs
    · exact samePlace_uncast s _ _
    · exact .refl s

theorem samePlace_applyTally (sorter : Sorter) (s : Snapshot) (candidate : Address) :
    s.SamePlace (s.applyTally sorter candidate) := by
  unfold applyTally
  split
  · exact .refl s
  · split_ifs with _ hauth
    · exact ⟨rfl, rfl, rfl⟩
    · -- the removed validator's votes go first
      have h := samePlace_foldl_uncast candidate s.votes
        { s with valSet := (s.valSet.removeValidator candidate).1 }
      exact ⟨h.epoch, h.number, h.hash⟩
    · exact .refl s

theorem samePlace_applyVote (sorter : Sorter) (s : Snapshot) (number : Nat)
    (validator candidate : Address) (authorize : Bool) :
    s.SamePlace (s.applyVote sorter number validator candidate authorize) := by
  -- the earlier vote discarded, the new one recorded, the tally applied
  have h₁ : s.SamePlace (s.discardVote validator candidate) := by
    unfold discardVote
    split
    · exact .refl s
    · rename_i vote _
      have h := samePlace_uncast s vote.address vote.authorize
      exact ⟨h.epoch, h.number, h.hash⟩
  have h₂ : ∀ t : Snapshot, t.SamePlace (t.recordVote number validator candidate authorize) := by
    intro t
    unfold recordVote
    have h := samePlace_cast t candidate authorize
    dsimp only
    split_ifs
    · exact ⟨h.epoch, h.number, h.hash⟩
    · exact h
  exact (h₁.trans (h₂ _)).trans (samePlace_applyTally sorter _ candidate)

end Snapshot

theorem samePlace_snapApplyHeader {E : Engine H ε} {sorter : Sorter} {s s' : Snapshot} {header : H}
    (h : snapApplyHeader E sorter s header = some (.ok s')) : s.SamePlace s' := by
  obtain ⟨validator, candidate, authorize, -, -, -, rfl⟩ := snapApplyHeader_eq_ok h
  -- the checkpoint keeps the place too
  have hcp : s.SamePlace (s.checkpoint (E.number header)) := by
    unfold Snapshot.checkpoint
    split_ifs
    · exact ⟨rfl, rfl, rfl⟩
    · exact .refl s
  exact hcp.trans (Snapshot.samePlace_applyVote ..)

theorem samePlace_applyHeaders {E : Engine H ε} {sorter : Sorter} :
    ∀ (headers : List H) {s s' : Snapshot}, applyHeaders E sorter s headers = some (.ok s') →
      s.SamePlace s'
  | [], s, _, h => by
    cases h
    exact .refl s
  | header :: headers, s, s', h => by
    unfold applyHeaders at h
    split at h
    · cases h
    · cases h
    · rename_i s₁ h₁
      exact (samePlace_snapApplyHeader h₁).trans (samePlace_applyHeaders headers h)

theorem u64_u64_add_one (n : Nat) : u64 (u64 n + 1) = u64 (n + 1) := Nat.mod_add_mod n _ 1

/-- Headers that pass the sanity check count up from the first: the last is as many blocks on. -/
theorem number_getLast_of_chained {E : Engine H ε} {last : H} :
    ∀ (first : H) (rest : List H) (n : Nat), chained E (first :: rest) = true →
      E.number first = u64 n → (first :: rest).getLast? = some last →
      E.number last = u64 (n + rest.length)
  | first, [], n, _, hfirst, hlast => by
    obtain rfl : first = last := by simpa using hlast
    exact hfirst
  | first, second :: rest, n, hc, hfirst, hlast => by
    simp only [chained, Bool.and_eq_true, beq_iff_eq] at hc
    obtain ⟨hsecond, hc⟩ := hc
    have hnext : E.number second = u64 (n + 1) := by rw [hsecond, hfirst, u64_u64_add_one]
    rw [List.getLast?_cons_cons] at hlast
    rw [number_getLast_of_chained second rest (n + 1) hc hnext hlast, List.length_cons,
      Nat.add_right_comm, Nat.add_assoc]

/-- `snapApply` leaves the snapshot at the last header: its number and its hash. -/
theorem snapApply_stands_at_last {E : Engine H ε} {sorter : Sorter} {snap s' : Snapshot}
    {headers : List H} {last : H} (h : snapApply E sorter snap headers = some (.ok s'))
    (hlast : headers.getLast? = some last) : s'.number = E.number last ∧ s'.hash = E.hash last := by
  cases headers with
  | nil => cases hlast
  | cons first rest =>
    simp only [snapApply, List.head?_cons, hlast] at h
    split_ifs at h with hbad
    · cases h
    obtain ⟨hc, hfirst⟩ : chained E (first :: rest) = true ∧ E.number first = u64 (snap.number + 1) := by
      simpa using hbad
    obtain ⟨r, hr, hs'⟩ := Option.map_eq_some_iff.mp h
    cases r with
    | error err => cases hs'
    | ok s₁ =>
      cases hs'
      -- the loop leaves the number where it was
      have hnum : s₁.number = snap.number := (samePlace_applyHeaders _ hr).number
      refine ⟨?_, rfl⟩
      rw [number_getLast_of_chained first rest _ hc hfirst hlast]
      show u64 (s₁.number + (rest.length + 1)) = _
      rw [hnum, Nat.add_assoc, Nat.add_comm 1]

theorem snapApply_stands_at_last_two :
    ∃ s', snapApply clearEngine sortByByte (newSnapshot 30000 0 0 ⟨[1, 2, 3], .roundRobin, none⟩)
        [(1, 1, 3, false), (2, 2, 3, false)] = some (.ok s') ∧
      [(1, 1, 3, false), (2, 2, 3, false)].getLast? = some (2, 2, 3, false) ∧
      s'.number = clearEngine.number (2, 2, 3, false) ∧ s'.hash = clearEngine.hash (2, 2, 3, false) := by
  have hrun : snapApply clearEngine sortByByte (newSnapshot 30000 0 0 ⟨[1, 2, 3], .roundRobin, none⟩)
      [(1, 1, 3, false), (2, 2, 3, false)] = some (.ok _) := rfl
  have hlast : [(1, 1, 3, false), (2, 2, 3, false)].getLast? = some (2, 2, 3, false) := rfl
  exact ⟨_, hrun, hlast, snapApply_stands_at_last hrun hlast⟩

/-! ## The validator set stays a set -/

theorem ValidatorSet.nodup_addValidator {vs : ValidatorSet} (hnd : vs.validators.Nodup)
    (sorter : Sorter) (address : Address) : (vs.addValidator sorter address).1.validators.Nodup := by
  unfold ValidatorSet.addValidator
  split_ifs with hmem
  · exact hnd
  · exact (sorter.perm _).nodup_iff.mpr
      (hnd.append (List.nodup_singleton address) (List.disjoint_singleton.mpr hmem))

theorem ValidatorSet.nodup_removeValidator {vs : ValidatorSet} (hnd : vs.validators.Nodup)
    (address : Address) : (vs.removeValidator address).1.validators.Nodup := by
  unfold ValidatorSet.removeValidator
  split_ifs
  · exact hnd.erase address
  · exact hnd

theorem Snapshot.nodup_applyTally {s : Snapshot} (hnd : s.valSet.validators.Nodup)
    (sorter : Sorter) (candidate : Address) :
    (s.applyTally sorter candidate).valSet.validators.Nodup := by
  unfold Snapshot.applyTally
  split
  · exact hnd
  · split_ifs
    · exact ValidatorSet.nodup_addValidator hnd sorter candidate
    · -- dropping the removed validator's votes leaves the set alone
      simp only [discardVotesBy_valSet]
      exact ValidatorSet.nodup_removeValidator hnd candidate
    · exact hnd

theorem nodup_snapApplyHeader {E : Engine H ε} {sorter : Sorter} {s s' : Snapshot} {header : H}
    (hnd : s.valSet.validators.Nodup) (h : snapApplyHeader E sorter s header = some (.ok s')) :
    s'.valSet.validators.Nodup := by
  obtain ⟨validator, candidate, authorize, -, -, -, rfl⟩ := snapApplyHeader_eq_ok h
  -- neither the checkpoint nor the recorded vote touch the set
  have hV : ((((s.checkpoint (E.number header)).discardVote validator candidate).recordVote
      (E.number header) validator candidate authorize)).valSet = s.valSet := by
    simp only [recordVote_valSet, discardVote_valSet, checkpoint_valSet]
  exact Snapshot.nodup_applyTally (hV ▸ hnd) sorter candidate

/-- Over any run of headers, the validator set never holds an address twice. -/
theorem applyHeaders_validators_nodup {E : Engine H ε} {sorter : Sorter} :
    ∀ (headers : List H) {s s' : Snapshot}, s.valSet.validators.Nodup →
      applyHeaders E sorter s headers = some (.ok s') → s'.valSet.validators.Nodup
  | [], _, _, hnd, h => by
    cases h
    exact hnd
  | header :: headers, s, s', hnd, h => by
    unfold applyHeaders at h
    split at h
    · cases h
    · cases h
    · rename_i s₁ h₁
      exact applyHeaders_validators_nodup headers (nodup_snapApplyHeader hnd h₁) h

theorem applyHeaders_validators_nodup_removal :
    ∃ s', (newSnapshot 30000 0 0 ⟨[1, 2, 3], .roundRobin, none⟩).valSet.validators.Nodup ∧
      applyHeaders clearEngine sortByByte (newSnapshot 30000 0 0 ⟨[1, 2, 3], .roundRobin, none⟩)
        [(1, 1, 3, false), (2, 2, 3, false)] = some (.ok s') ∧ s'.valSet.validators.Nodup := by
  have hrun : applyHeaders clearEngine sortByByte (newSnapshot 30000 0 0 ⟨[1, 2, 3], .roundRobin, none⟩)
      [(1, 1, 3, false), (2, 2, 3, false)] = some (.ok _) := rfl
  have hnd : (newSnapshot 30000 0 0 ⟨[1, 2, 3], .roundRobin, none⟩).valSet.validators.Nodup := by
    decide
  exact ⟨_, hnd, hrun, applyHeaders_validators_nodup _ hnd hrun⟩

end QuorumHotstuff.Istanbul
