import QuorumHotstuff.Hotstuff.Checks

/-!
# Backlog replay

`processBacklog` pops each queue in priority order, replays the messages of the current view and
drops the old ones, and stops at the first future message it pops.  It replays every current
message only if no future message comes out of the queue first, that is if `toPriority` ranks
views lexicographically.  It does while rounds stay below ten (`toPriority_lt_of_lt`); from round
ten on the round's digit carries into the height's, and a message of the next height outranks a
current one (`toPriority_next_height_first`).  The run at the end reaches that case after ten
round changes: the current Prepare stays queued and is never replayed.
-/

namespace QuorumHotstuff.Hotstuff

open QuorumHotstuff.Lib

namespace Core

/-- The priority of a message of a small view, without the `int64` wrap. -/
theorem toPriority_of_small {code : MsgType} {v : View} (hh : v.height < 2 ^ 50)
    (hr : v.round < 2 ^ 50) :
    toPriority code v = -((v.height : Int) * 100 + v.round * 10 + messagePriority code) := by
  have hp : 0 ≤ messagePriority code ∧ messagePriority code ≤ 8 := by
    unfold messagePriority
    split_ifs <;> omega
  unfold toPriority
  rw [i64_of_bounds (by omega) (by omega), i64_of_bounds (by omega) (by omega)]
  unfold wrap64
  rw [BitVec.toInt_ofInt]
  simp only [Int.bmod]
  split <;> omega

/-- Below round ten the priority is lexicographic: a message of a smaller view, of a small
    height, is popped first. -/
theorem toPriority_lt_of_lt {c₁ c₂ : MsgType} {v₁ v₂ : View} (hv : v₁.lt v₂)
    (hh : v₂.height < 2 ^ 50) (hr₁ : v₁.round < 10) (hr₂ : v₂.round < 10) :
    toPriority c₂ v₂ < toPriority c₁ v₁ := by
  have hh₁ : v₁.height ≤ v₂.height := by
    unfold View.lt at hv
    omega
  have hp₁ : messagePriority c₁ ≤ 8 := by
    unfold messagePriority
    split_ifs <;> omega
  have hp₂ : 0 ≤ messagePriority c₂ := by
    unfold messagePriority
    split_ifs <;> omega
  rw [toPriority_of_small hh (by omega), toPriority_of_small (by omega) (by omega)]
  unfold View.lt at hv
  omega

/-- From round ten on a NewView of the next height outranks a Prepare of the current one. -/
theorem toPriority_next_height_first {h r : Nat} (hh : h < 2 ^ 49) (hr₁ : 10 ≤ r) (hr₂ : r < 2 ^ 40) :
    toPriority .prepare ⟨r, h⟩ < toPriority .newView ⟨0, h + 1⟩ := by
  rw [toPriority_of_small (by simp; omega) (by simp; omega),
    toPriority_of_small (by simp; omega) (by simp)]
  simp only [messagePriority, MsgType.prepare, MsgType.newView]
  push_cast
  omega

/-- A NewView of height seven, which validator 3 sends early. -/
def backlogNewView : Message := ⟨3, .newView, ⟨0, 7⟩, .qc ⟨⟨0, 6⟩, .prepareVote, 19, 3, [3]⟩⟩

/-- A Prepare of round ten at height six. -/
def backlogPrepare : Message :=
  ⟨3, .prepare, ⟨10, 6⟩, .packagedQC ⟨7, some (exampleBlock 5 11)⟩ ⟨⟨0, 5⟩, .prepareVote, 7, 1, []⟩⟩

/-- Validator 2 at height six backlogs both messages, then times out ten times. -/
def backlogEvents : List ((Block × Address) × Event) :=
  [(exampleHead 5, .message 3 backlogNewView), (exampleHead 5, .message 3 backlogPrepare)] ++
    List.replicate 10 (exampleHead 5, .timeout)

def backlogConfig : Core × List Output :=
  runList (next exampleEnv) (exampleCore.start exampleEnv (exampleHead 5)) backlogEvents

theorem backlogEvents_authentic : ∀ e ∈ backlogEvents, ∀ h, Authentic 2 h e := by
  intro e he h
  rw [backlogEvents, List.mem_append] at he
  rcases he with he | he
  · -- the two messages of validator 3
    simp only [List.mem_cons, List.not_mem_nil, or_false] at he
    rcases he with rfl | rfl <;>
      exact ⟨by unfold HeadFits; decide, fun m hm ha => by simp [Event.handled] at hm; subst hm; cases ha⟩
  · -- the timeouts
    rw [List.mem_replicate] at he
    rw [he.2]
    exact ⟨by unfold HeadFits; decide, fun m hm => by simp [Event.handled] at hm⟩

/-- After ten round changes validator 2 is at view `(10, 6)`, where the backlogged Prepare is
    current; the NewView of height seven, popped first, stops the replay each time, so the
    Prepare stays queued, was never replayed, and `processBacklog` replays nothing. -/
theorem processBacklog_skips_current_prepare :
    Reachable (StartedAs exampleEnv 2) (next exampleEnv) (Authentic 2) backlogConfig ∧
    backlogConfig.1.checkView backlogPrepare.view = none ∧
    backlogNewView.view.height = backlogConfig.1.currentView.height + 1 ∧
    backlogPrepare ∈ (backlogConfig.1.backlogOf 3).items.map (·.1) ∧
    Output.backlogEvent backlogPrepare ∉ backlogConfig.2 ∧
    backlogConfig.1.processBacklog.2 = [] := by
  refine ⟨⟨_, ⟨⟨exampleCore, exampleHead 5, rfl, by decide, rfl⟩, rfl⟩,
    Run.of_runList backlogEvents_authentic _⟩, by decide, by decide, by decide, by decide,
    by decide⟩

end Core

end QuorumHotstuff.Hotstuff
