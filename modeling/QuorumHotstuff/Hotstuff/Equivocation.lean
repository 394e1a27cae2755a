import QuorumHotstuff.Hotstuff.Progress

/-!
# No equivocation

An honest validator names one node per view: every vote it casts and every Prepare it sends in a
view carry the hash of the same node.  `sendVote` signs whatever node the round state holds, and
`sendPrepare` and `handlePrepare` rewrite that node; `Spine.Sound` records that each vote and each
Prepare leaves a settled spine, whose node the rest of the view keeps, except the proposer's votes
on a Prepare or a Commit of its own.  Nobody else signs with the validator's key, and its backlog
keeps no message of its own, so on the runs here such a message was sent by the validator itself,
from a settled spine of the same view.  `Record` is the history invariant that collects this.

On the chain head `2^64 - 1` the view repeats (see `Progress`), and the example run votes for two
nodes in one view.
-/

namespace QuorumHotstuff.Hotstuff

open Spine QuorumHotstuff.Lib

/-! ## Views as `checkView` compares them -/

theorem i64_eq_zero {x : Int} (h : i64 x = 0) (hx : x.natAbs < 2 ^ 64) : x = 0 := by
  unfold i64 at h
  have hb : BitVec.ofNat 64 x.natAbs = 0 := by
    split_ifs at h
    · have h' : -BitVec.ofNat 64 x.natAbs = 0 := by
        rw [← BitVec.toInt_inj]
        simpa using h
      simpa using h'
    · rw [← BitVec.toInt_inj]
      simpa using h
  have hn : x.natAbs % 2 ^ 64 = 0 := by
    have := congrArg BitVec.toNat hb
    simpa using this
  rw [Nat.mod_eq_of_lt hx] at hn
  exact Int.natAbs_eq_zero.mp hn

/-- Two views that fit in `uint64` and whose `Sub` is zero are equal. -/
theorem View.eq_of_sub_eq_zero {v y : View} (h : v.sub y = (0, 0)) (hvh : v.height < 2 ^ 64)
    (hvr : v.round < 2 ^ 64) (hyh : y.height < 2 ^ 64) (hyr : y.round < 2 ^ 64) : v = y := by
  simp only [View.sub, Prod.mk.injEq] at h
  have h₁ := i64_eq_zero h.1 (by omega)
  have h₂ := i64_eq_zero h.2 (by omega)
  obtain ⟨r, hh⟩ := v
  obtain ⟨r', hh'⟩ := y
  simp only at h₁ h₂
  rw [show hh = hh' by omega, show r = r' by omega]

/-! ## The node a message names -/

/-- The node hash a message names: the node a vote is for, or the node a Prepare proposes. -/
def Message.nodeHash (E : Env) (m : Message) : Option Hash :=
  match m.msg with
  | .vote v => some v.proposedBlock
  | .packagedQC n _ => some (n.hash E)
  | _ => none

/-- No two messages of one view name different nodes. -/
def NoEquivocation (E : Env) (sent : List Message) : Prop :=
  ∀ m₁ ∈ sent, ∀ m₂ ∈ sent, m₁.view = m₂.view → ∀ h₁ h₂,
    m₁.nodeHash E = some h₁ → m₂.nodeHash E = some h₂ → h₁ = h₂

namespace Spine

variable {E : Env}

theorem Quiet.nodeHash {m : Message} (h : Quiet m) : m.nodeHash E = none := by
  unfold Message.nodeHash
  split
  · rename_i v hv
    exact absurd hv (h.1 v)
  · rename_i n qc hn
    exact absurd hn (h.2.1 n qc)
  · rfl

/-- A message naming a node, sent from a spine with no vote left to a permit, was sent in the
    spine's view from a settled spine holding that node. -/
theorem SentAt.nodeHash {si : Spine} {m : Message} {h : Hash}
    (hs : SentAt E (fun _ _ => False) si m) (hm : m.nodeHash E = some h) :
    m.view = si.view ∧ si.Settled ∧ ∃ n, si.node = some n ∧ n.hash E = h := by
  unfold Message.nodeHash at hm
  split at hm
  · rename_i v hv
    obtain ⟨⟨hview, -, n, hn, hvn⟩, hset⟩ := hs.vote v hv
    cases hm
    exact ⟨hview, (hset.resolve_right id).1, n, hn, hvn.symm⟩
  · rename_i n qc hn
    obtain ⟨hview, hset, hkey⟩ := hs.prepare n qc hn
    obtain ⟨n', hn', hk⟩ := Option.map_eq_some_iff.mp hkey
    cases hm
    exact ⟨hview, hset, n', hn', ProposedBlock.hash_eq_of_key_eq hk⟩
  · cases hm

/-- Two messages of one view, sent from settled spines in order, name the same node. -/
theorem nodeHash_eq_of_advance {s₁ s₂ : Spine} {m₁ m₂ : Message} {h₁ h₂ : Hash}
    (hs₁ : SentAt E (fun _ _ => False) s₁ m₁) (hs₂ : SentAt E (fun _ _ => False) s₂ m₂)
    (hadv : Advance s₁ s₂) (hv : m₁.view = m₂.view) (hm₁ : m₁.nodeHash E = some h₁)
    (hm₂ : m₂.nodeHash E = some h₂) : h₁ = h₂ := by
  obtain ⟨hv₁, hset₁, n₁, hn₁, rfl⟩ := hs₁.nodeHash hm₁
  obtain ⟨hv₂, -, n₂, hn₂, rfl⟩ := hs₂.nodeHash hm₂
  -- the later spine is in the same view, so it keeps the settled node
  have hkept := hadv.node_kept (by rw [← hv₁, ← hv₂, hv]) hset₁
  simp only [hn₁, hn₂, Option.map_some, Option.some.injEq] at hkept
  exact ProposedBlock.hash_eq_of_key_eq hkept.symm

/-- The spine an echo for a vote of `code` covers may cast that vote on its own when the echoed
    message was sent from an earlier spine with no vote left to a permit: a Prepare from a settled
    spine of the same view, which covers no CommitVote; a Commit from a locked spine past
    `StatePreCommitted` in its certificate's view, whose lock the later spine of that view keeps. -/
theorem votes_of_echo {sj si : Spine} {data : Message} {code : MsgType} (he : Echo data code si)
    (hsj : sj.Inv) (hsi : si.Inv) (hadv : Advance sj si)
    (hs : SentAt E (fun _ _ => False) sj data) : si.Votes code := by
  rcases he.2 with ⟨hcode, n, qc, hmsg, hsub⟩ | ⟨hcode, qc, hmsg, hsub⟩
  · obtain ⟨hview, hset, -⟩ := hs.prepare n qc hmsg
    have heq : data.view = si.view := View.eq_of_sub_eq_zero hsub
      (by rw [hview]; exact hsj.height_lt) (by rw [hview]; exact hsj.round_lt)
      hsi.height_lt hsi.round_lt
    exact .of_settled (hadv.settled (heq.symm.trans hview) hset) hcode
  · obtain ⟨hview, hst, b, hb⟩ := hs.commit hcode qc hmsg
    have heq : qc.view = si.view := View.eq_of_sub_eq_zero hsub
      (by rw [hview]; exact hsj.height_lt) (by rw [hview]; exact hsj.round_lt)
      hsi.height_lt hsi.round_lt
    have hsame : si.view = sj.view := heq.symm.trans hview
    have hle : sj.state ≤ si.state := hadv.state_le hsame
    obtain ⟨b', hb', -⟩ := hadv.lock_kept (by rw [hsame]) b hb
    exact ⟨settled_of_lt (Nat.lt_of_lt_of_le (show State.highQC < State.preCommitted by decide)
      (State.le_trans hst hle)), fun _ => ⟨b', hb'⟩⟩

end Spine

namespace Core

variable (E : Env)

/-- The inputs an honest validator `own` receives: chain heads below `2^64 - 1`, and a message
    that carries its own address, as signer or in a replayed backlog, is one it sent. -/
def Authentic (own : Address) (hist : List Output) (i : (Block × Address) × Event) : Prop :=
  HeadFits hist i ∧ ∀ m, i.2.handled = some m → m.address = own → m ∈ sentIn hist

/-- `Authentic` as a test, to check a given feed of inputs against the history it builds. -/
def authenticTest (own : Address) (hist : List Output) (i : (Block × Address) × Event) : Bool :=
  decide (i.1.1.number + 1 < 2 ^ 64) &&
    i.2.handled.all fun m => m.address != own || decide (m ∈ sentIn hist)

theorem authentic_of_test {own : Address} {hist : List Output} {i : (Block × Address) × Event}
    (h : authenticTest own hist i = true) : Authentic own hist i := by
  unfold authenticTest at h
  rw [Bool.and_eq_true, decide_eq_true_eq] at h
  refine ⟨h.1, fun m hm ha => ?_⟩
  have hsent := h.2
  rw [hm, Option.all_some, Bool.or_eq_true, bne_iff_ne, decide_eq_true_eq] at hsent
  exact hsent.resolve_left (not_not.mpr ha)

/-- The configurations right after `Start` of the validator `own`. -/
def StartedAs (own : Address) (p : Core × List Output) : Prop := Started E p ∧ p.1.address = own

/-- The history invariant of an honest validator: each message it sent left a spine that the
    current one has advanced from, with no vote left to a permit, and any two of them left spines
    in order. -/
structure Record (own : Address) (q : Core × List Output) : Prop where
  inv : q.1.spine.Inv
  self_eq : q.1.spine.self = own
  sent : ∀ m ∈ sentIn q.2, ∃ si, si.Inv ∧ Advance si q.1.spine ∧ SentAt E (fun _ _ => False) si m
  ordered : ∀ m₁ ∈ sentIn q.2, ∀ m₂ ∈ sentIn q.2, ∃ s₁ s₂, s₁.Inv ∧ s₂.Inv ∧
    SentAt E (fun _ _ => False) s₁ m₁ ∧ SentAt E (fun _ _ => False) s₂ m₂ ∧
    (Advance s₁ s₂ ∨ Advance s₂ s₁)

variable {E}

/-- `Start` sends a NewView only. -/
theorem quiet_start (c : Core) (head : Block × Address) :
    ∀ m ∈ sentIn (c.start E head).2, Quiet m := by
  unfold start startNewRound
  simp only [Bool.not_true, Bool.false_eq_true, ↓reduceIte, newRoundView]
  intro m hm
  rw [sentIn_append, List.mem_append] at hm
  rcases hm with hm | hm
  · simp at hm
  · exact quiet_sendNewView _ m hm

theorem record_of_started {own : Address} {p : Core × List Output} (h : StartedAs E own p) :
    Record E own p := by
  obtain ⟨hst, hself⟩ := h
  have hinv := inv_of_started hst
  obtain ⟨c, head, -, -, rfl⟩ := hst
  have hq := quiet_start (E := E) c head
  refine ⟨hinv, hself, fun m hm => ⟨_, hinv, Advance.refl _, .of_quiet E (hq m hm) _⟩,
    fun m₁ hm₁ m₂ hm₂ => ⟨_, _, hinv, hinv, .of_quiet E (hq m₁ hm₁) _, .of_quiet E (hq m₂ hm₂) _,
      .inl (Advance.refl _)⟩⟩

/-- A message sent in a step on an authentic input says of its spine what a message sent under
    no permit says: the echo the input hands over was sent earlier, from a settled spine. -/
theorem sentAt_of_permit {own : Address} {p : Core × List Output} {ev : Event}
    (hp : Record E own p) (hauth : ∀ m, ev.handled = some m → m.address = own → m ∈ sentIn p.2)
    {si : Spine} {m : Message} (hsi : si.Inv) (hadv : Advance p.1.spine si)
    (hs : SentAt E ev.permit si m) : SentAt E (fun _ _ => False) si m := by
  refine ⟨fun v hv => ⟨(hs.vote v hv).1, .inl ?_⟩, hs.prepare, hs.commit⟩
  rcases (hs.vote v hv).2 with hvotes | ⟨data, hdata, he⟩
  · exact hvotes
  · have hself : data.address = own := by rw [he.1, hadv.self_kept, hp.self_eq]
    obtain ⟨sj, hsj, hadvj, hsent⟩ := hp.sent data (hauth data hdata hself)
    exact votes_of_echo he hsj hsi (hadvj.trans hadv) hsent

/-- Every authentic step keeps the record. -/
theorem record_next {own : Address} {p : Core × List Output} {i : (Block × Address) × Event}
    (hp : Record E own p) (hi : Authentic own p.2 i) :
    Record E own ((next E p.1 i).1, p.2 ++ (next E p.1 i).2) := by
  have hs : Sound E i.2.permit p.1.spine (next E p.1 i).1.spine (next E p.1 i).2 :=
    sound_step hi.1 hp.inv i.2
  -- the messages of the step, each from a settled spine between the two configurations
  have hnew : ∀ s₁ m, SentBetween E i.2.permit p.1.spine (next E p.1 i).1.spine s₁ m →
      s₁.Inv ∧ Advance p.1.spine s₁ ∧ Advance s₁ (next E p.1 i).1.spine ∧
        SentAt E (fun _ _ => False) s₁ m := fun s₁ m hb =>
    ⟨hb.1, hb.2.1, hb.2.2.1, sentAt_of_permit hp hi.2 hb.1 hb.2.1 hb.2.2.2⟩
  refine ⟨hs.inv, ?_, ?_, ?_⟩
  · rw [hs.adv.self_kept, hp.self_eq]
  · intro m hm
    rw [sentIn_append, List.mem_append] at hm
    rcases hm with hm | hm
    · obtain ⟨si, hsi, hadv, hsent⟩ := hp.sent m hm
      exact ⟨si, hsi, hadv.trans hs.adv, hsent⟩
    · obtain ⟨si, hb⟩ := hs.sent hm
      obtain ⟨hsi, -, hadv, hsent⟩ := hnew si m hb
      exact ⟨si, hsi, hadv, hsent⟩
  · intro m₁ hm₁ m₂ hm₂
    rw [sentIn_append, List.mem_append] at hm₁ hm₂
    rcases hm₁ with hm₁ | hm₁ <;> rcases hm₂ with hm₂ | hm₂
    · exact hp.ordered m₁ hm₁ m₂ hm₂
    · -- an earlier message and one of this step, through the spine between them
      obtain ⟨s₁, hs₁, hadv₁, hsent₁⟩ := hp.sent m₁ hm₁
      obtain ⟨s₂, hb₂⟩ := hs.sent hm₂
      obtain ⟨hs₂, hadv₂, -, hsent₂⟩ := hnew s₂ m₂ hb₂
      exact ⟨s₁, s₂, hs₁, hs₂, hsent₁, hsent₂, .inl (hadv₁.trans hadv₂)⟩
    · obtain ⟨s₁, hb₁⟩ := hs.sent hm₁
      obtain ⟨hs₁, hadv₁, -, hsent₁⟩ := hnew s₁ m₁ hb₁
      obtain ⟨s₂, hs₂, hadv₂, hsent₂⟩ := hp.sent m₂ hm₂
      exact ⟨s₁, s₂, hs₁, hs₂, hsent₁, hsent₂, .inr (hadv₂.trans hadv₁)⟩
    · -- two messages of this step, sent from spines in order
      obtain ⟨s₁, s₂, hb₁, hb₂, hord⟩ := hs.sends m₁ hm₁ m₂ hm₂
      exact ⟨s₁, s₂, hb₁.1, hb₂.1, (hnew s₁ m₁ hb₁).2.2.2, (hnew s₂ m₂ hb₂).2.2.2, hord⟩

theorem record_of_reachable {own : Address} {q : Core × List Output}
    (h : Reachable (StartedAs E own) (next E) (Authentic own) q) : Record E own q :=
  Reachable.invariant (I := Record E own) (fun _ hp => record_of_started hp)
    (fun _ _ hp hi => record_next hp hi) h

/-- Messages left from spines in order name one node per view. -/
theorem Record.agree {own : Address} {q : Core × List Output} (h : Record E own q) :
    NoEquivocation E (sentIn q.2) := by
  intro m₁ hm₁ m₂ hm₂ hv h₁ h₂ hh₁ hh₂
  obtain ⟨s₁, s₂, -, -, hsent₁, hsent₂, hord⟩ := h.ordered m₁ hm₁ m₂ hm₂
  rcases hord with h12 | h21
  · exact nodeHash_eq_of_advance hsent₁ hsent₂ h12 hv hh₁ hh₂
  · exact (nodeHash_eq_of_advance hsent₂ hsent₁ h21 hv.symm hh₂ hh₁).symm

/-- No equivocation.  Over every run of a started validator on chain heads below `2^64 - 1` in
    which a message carrying its own address is one it sent: all votes it sends in one view are
    for the same node hash, whatever their codes, and all Prepares it sends in one view propose
    nodes of the same hash. -/
theorem run_no_equivocation {own : Address} {q : Core × List Output}
    (h : Reachable (StartedAs E own) (next E) (Authentic own) q) :
    (∀ m₁ ∈ sentIn q.2, ∀ m₂ ∈ sentIn q.2, ∀ v₁ v₂, m₁.msg = .vote v₁ → m₂.msg = .vote v₂ →
      m₁.view = m₂.view → v₁.proposedBlock = v₂.proposedBlock) ∧
    (∀ m₁ ∈ sentIn q.2, ∀ m₂ ∈ sentIn q.2, ∀ n₁ n₂ qc₁ qc₂, m₁.msg = .packagedQC n₁ qc₁ →
      m₂.msg = .packagedQC n₂ qc₂ → m₁.view = m₂.view → n₁.hash E = n₂.hash E) := by
  have hagree := (record_of_reachable h).agree
  constructor
  · intro m₁ hm₁ m₂ hm₂ v₁ v₂ hv₁ hv₂ hv
    exact hagree m₁ hm₁ m₂ hm₂ hv _ _ (by simp [Message.nodeHash, hv₁])
      (by simp [Message.nodeHash, hv₂])
  · intro m₁ hm₁ m₂ hm₂ n₁ n₂ qc₁ qc₂ hn₁ hn₂ hv
    exact hagree m₁ hm₁ m₂ hm₂ hv _ _ (by simp [Message.nodeHash, hn₁])
      (by simp [Message.nodeHash, hn₂])

/-- The example validator 2 only receives messages of validator 3. -/
theorem exampleEvents_authentic {es : List ((Block × Address) × Event)}
    (hes : ∀ e ∈ es, e ∈ exampleEvents 5) : ∀ e ∈ es, ∀ h, Authentic 2 h e := by
  intro e he h
  refine ⟨exampleEvents_fit hes e he h, fun m hm ha => ?_⟩
  have hmem := hes e he
  simp only [exampleEvents, List.mem_cons, List.not_mem_nil, or_false] at hmem
  rcases hmem with rfl | rfl | rfl | rfl <;> simp [Event.handled] at hm <;> rw [← hm] at ha <;>
    cases ha

/-- The example run is a run of the honest validator 2, whose votes in a view agree. -/
theorem run_no_equivocation_example :
    Reachable (StartedAs exampleEnv 2) (next exampleEnv) (Authentic 2) (exampleConfig 5 4) ∧
    ∀ m₁ ∈ sentIn (exampleConfig 5 4).2, ∀ m₂ ∈ sentIn (exampleConfig 5 4).2, ∀ v₁ v₂,
      m₁.msg = .vote v₁ → m₂.msg = .vote v₂ → m₁.view = m₂.view →
      v₁.proposedBlock = v₂.proposedBlock := by
  have hr : Reachable (StartedAs exampleEnv 2) (next exampleEnv) (Authentic 2)
      (exampleConfig 5 4) :=
    ⟨_, ⟨⟨exampleCore, exampleHead 5, rfl, by decide, rfl⟩, rfl⟩,
      Run.of_runList (exampleEvents_authentic fun _ he => List.mem_of_mem_take he) _⟩
  exact ⟨hr, (run_no_equivocation hr).1⟩

/-- On a chain head of number `2^64 - 1` the timeout takes the validator back to the view it was
    in, unlocked and in `StateAcceptRequest`, and it votes there for a second node: two
    PrepareVotes of view `(0, 2^64)` for the node hashes 19 and 33. -/
theorem timeout_at_last_height_equivocates :
    (⟨2, .prepareVote, ⟨0, 2 ^ 64⟩, .vote ⟨.prepareVote, ⟨0, 2 ^ 64⟩, 19, [2]⟩⟩ : Message) ∈
      sentIn (exampleConfig (2 ^ 64 - 1) 4).2 ∧
    (⟨2, .prepareVote, ⟨0, 2 ^ 64⟩, .vote ⟨.prepareVote, ⟨0, 2 ^ 64⟩, 33, [2]⟩⟩ : Message) ∈
      sentIn (exampleConfig (2 ^ 64 - 1) 4).2 := by
  decide

end Core

end QuorumHotstuff.Hotstuff
