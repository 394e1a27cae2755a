import QuorumHotstuff.Hotstuff.Core
import Mathlib.Data.Prod.Lex

/-!
# The spine of a core: view, phase, node and lock

The view, phase and lock properties of a validator read only a few fields of its state: the
view, the phase, the proposed node, the block `LockedBlock` returns, whether the engine runs and
has a round state, the view stored in the database, its address, whether it is the proposer, and
whether its node is the one `sendPrepare` would propose.  A `Spine` holds exactly these.  This
module states the invariant of a spine, the relation `Advance` between the spines before and
after a step (the view never goes back, the phase never goes back within a view, the lock is kept
within a height), and `Sound`, which adds that every message sent on the way left a spine between
the two, and says what it left: a vote is cast from a settled node, or from one that a permit
covers, the proposer's own Prepare or Commit that it votes on.  `Ops` and `Steps` prove that
every operation of the core is `Sound`.
-/

namespace QuorumHotstuff.Hotstuff

/-- A view as a point of the lexicographic order on (height, round) that `View.Cmp` decides. -/
def View.key (v : View) : ℕ ×ₗ ℕ := toLex (v.height, v.round)

theorem View.key_le_iff {v y : View} :
    v.key ≤ y.key ↔ v.height < y.height ∨ v.height = y.height ∧ v.round ≤ y.round :=
  Prod.Lex.toLex_le_toLex

theorem View.key_lt_iff {v y : View} :
    v.key < y.key ↔ v.height < y.height ∨ v.height = y.height ∧ v.round < y.round :=
  Prod.Lex.toLex_lt_toLex

theorem View.key_injective : Function.Injective View.key := by
  rintro ⟨r, h⟩ ⟨r', h'⟩ heq
  simp only [View.key, toLex_inj, Prod.mk.injEq] at heq
  rw [heq.1, heq.2]

theorem View.height_le_of_key_le {v y : View} (h : v.key ≤ y.key) : v.height ≤ y.height := by
  rcases View.key_le_iff.mp h with h | ⟨h, -⟩ <;> omega

/-- `View.Cmp` decides the lexicographic order. -/
theorem View.cmp_eq_lt_iff {v y : View} : v.cmp y = .lt ↔ v.key < y.key := by
  rw [View.key_lt_iff, View.cmp]
  by_cases hh : v.height = y.height
  · simp [hh, compare_lt_iff_lt]
  · simp only [ne_eq, hh, not_false_eq_true, ↓reduceIte, compare_lt_iff_lt, false_and, or_false]

theorem View.cmp_eq_eq_iff {v y : View} : v.cmp y = .eq ↔ v = y := by
  rcases v with ⟨r, h⟩
  rcases y with ⟨r', h'⟩
  by_cases hh : h = h' <;> simp [View.cmp, hh]

theorem State.le_refl (a : State) : a ≤ a := Nat.le_refl a.toNat

theorem State.le_trans {a b c : State} (h₁ : a ≤ b) (h₂ : b ≤ c) : a ≤ c :=
  Nat.le_trans h₁ h₂

theorem State.le_of_lt {a b : State} (h : a < b) : a ≤ b := Nat.le_of_lt h

theorem State.le_antisymm {a b : State} (h₁ : a ≤ b) (h₂ : b ≤ a) : a = b :=
  State.toNat_injective (Nat.le_antisymm h₁ h₂)

/-- A proposed block up to the block's contents: the two hashes `ProposedBlock.Hash` reads. -/
def ProposedBlock.key (n : ProposedBlock) : Hash × Option Hash := (n.parent, n.block.map Block.hash)

theorem ProposedBlock.hash_eq_of_key_eq {E : Env} {n n' : ProposedBlock} (h : n.key = n'.key) :
    n.hash E = n'.hash E := by
  obtain ⟨p, b⟩ := n
  obtain ⟨p', b'⟩ := n'
  simp only [ProposedBlock.key, Prod.mk.injEq] at h
  obtain ⟨rfl, hb⟩ := h
  cases b <;> cases b' <;> simp_all [ProposedBlock.hash]

/-- The fields of a core that the view, phase, lock and vote invariants read. -/
structure Spine where
  view : View
  state : State
  node : Option ProposedBlock
  lockedBlock : Option Block
  running : Bool
  started : Bool
  storedView : Option View
  self : Address
  proposer : Bool
  proposed : Bool
deriving DecidableEq, Repr

/-- A message that an output sends to other validators. -/
def Output.sent : Output → Option Message
  | .unicast _ m => some m
  | .broadcast m => some m
  | _ => none

/-- The messages a list of outputs sends. -/
def sentIn (out : List Output) : List Message := out.filterMap Output.sent

@[simp] theorem sentIn_nil : sentIn [] = [] := rfl

@[simp] theorem sentIn_append (o₁ o₂ : List Output) : sentIn (o₁ ++ o₂) = sentIn o₁ ++ sentIn o₂ :=
  List.filterMap_append

namespace Spine

variable (E : Env)

/-- The invariant of a running validator: heights are positive and, with rounds, fit in
    `uint64`, no view is stored (nothing calls `storeView`), a node carries a block, and a locked
    block is the block of the current node. -/
structure Inv (s : Spine) : Prop where
  running : s.running = true
  started : s.started = true
  height_pos : 0 < s.view.height
  height_lt : s.view.height < 2 ^ 64
  round_lt : s.view.round < 2 ^ 64
  storedView : s.storedView = none
  nodeBlock : ∀ n, s.node = some n → n.block.isSome
  lockNode : ∀ b, s.lockedBlock = some b →
    ∃ n, s.node = some n ∧ n.block.map Block.hash = some b.hash

/-- The node of a spine is fixed for the rest of its view: the phase is past `StateHighQC`, or the
    validator is a replica in it, or a proposer whose node is the one it proposes. -/
def Settled (s : Spine) : Prop :=
  .highQC ≤ s.state ∧ (s.proposer = true → s.state = .highQC → s.proposed = true)

/-- Past `StateHighQC` the node is settled. -/
theorem settled_of_lt {s : Spine} (h : .highQC < s.state) : s.Settled :=
  ⟨State.le_of_lt h, fun _ he => absurd (he ▸ h) (Nat.lt_irrefl _)⟩

/-- What a step may do to a spine: move to a view that is not smaller, move forward within a view,
    keep a lock on the same block hash while the height stays, and within a view keep the
    proposer, a settled node, and a node that is the proposal. -/
structure Advance (s s' : Spine) : Prop where
  view_le : s.view.key ≤ s'.view.key
  state_le : s'.view = s.view → s.state ≤ s'.state
  lock_kept : s'.view.height = s.view.height → ∀ b, s.lockedBlock = some b →
    ∃ b', s'.lockedBlock = some b' ∧ b'.hash = b.hash
  self_kept : s'.self = s.self
  proposer_kept : s'.view = s.view → s'.proposer = s.proposer
  node_kept : s'.view = s.view → s.Settled →
    s'.node.map ProposedBlock.key = s.node.map ProposedBlock.key
  proposed_kept : s'.view = s.view → s.state = .highQC → s'.state = .highQC →
    s.proposed = true → s'.proposed = true

/-- A step within one view, given by what it keeps. -/
theorem Advance.sameView {s s' : Spine} (hv : s'.view = s.view) (hst : s.state ≤ s'.state)
    (hlock : ∀ b, s.lockedBlock = some b → ∃ b', s'.lockedBlock = some b' ∧ b'.hash = b.hash)
    (hself : s'.self = s.self) (hprop : s'.proposer = s.proposer)
    (hnode : s.Settled → s'.node.map ProposedBlock.key = s.node.map ProposedBlock.key)
    (hproposed : s.state = .highQC → s'.state = .highQC → s.proposed = true →
      s'.proposed = true) : Advance s s' :=
  ⟨by rw [hv], fun _ => hst, fun _ => hlock, hself, fun _ => hprop, fun _ => hnode,
    fun _ => hproposed⟩

theorem Advance.refl (s : Spine) : Advance s s :=
  .sameView rfl (State.le_refl _) (fun b hb => ⟨b, hb, rfl⟩) rfl rfl (fun _ => rfl)
    (fun _ _ h => h)

/-- Within a view, a settled spine stays settled. -/
theorem Advance.settled {s t : Spine} (h : Advance s t) (hv : t.view = s.view) (hs : s.Settled) :
    t.Settled := by
  refine ⟨State.le_trans hs.1 (h.state_le hv), fun hp ht => ?_⟩
  -- the phase sits between `StateHighQC` and itself, so it was `StateHighQC` before too
  have hst : s.state = .highQC := State.le_antisymm (ht ▸ h.state_le hv) hs.1
  rw [h.proposer_kept hv] at hp
  exact h.proposed_kept hv hst ht (hs.2 hp hst)

theorem Advance.trans {s₁ s₂ s₃ : Spine} (h₁ : Advance s₁ s₂) (h₂ : Advance s₂ s₃) :
    Advance s₁ s₃ := by
  -- within one view, the middle view lies between two equal views, so it equals them
  have hmid : s₃.view = s₁.view → s₂.view = s₁.view ∧ s₃.view = s₂.view := by
    intro h13
    have h12 : s₂.view = s₁.view := by
      apply View.key_injective
      apply le_antisymm _ h₁.view_le
      rw [← h13]
      exact h₂.view_le
    exact ⟨h12, h13.trans h12.symm⟩
  refine ⟨le_trans h₁.view_le h₂.view_le, ?_, ?_, h₂.self_kept.trans h₁.self_kept, ?_, ?_, ?_⟩
  · intro h13
    obtain ⟨h12, h23⟩ := hmid h13
    exact State.le_trans (h₁.state_le h12) (h₂.state_le h23)
  · intro h13 b hb
    have hle₁ := View.height_le_of_key_le h₁.view_le
    have hle₂ := View.height_le_of_key_le h₂.view_le
    obtain ⟨b₂, hb₂, hh₂⟩ := h₁.lock_kept (by omega) b hb
    obtain ⟨b₃, hb₃, hh₃⟩ := h₂.lock_kept (by omega) b₂ hb₂
    exact ⟨b₃, hb₃, hh₃.trans hh₂⟩
  · intro h13
    obtain ⟨h12, h23⟩ := hmid h13
    exact (h₂.proposer_kept h23).trans (h₁.proposer_kept h12)
  · intro h13 hs
    obtain ⟨h12, h23⟩ := hmid h13
    exact (h₂.node_kept h23 (h₁.settled h12 hs)).trans (h₁.node_kept h12 hs)
  · intro h13 hst₁ hst₃ hp
    obtain ⟨h12, h23⟩ := hmid h13
    -- the middle phase lies between two `StateHighQC`s
    have hst₂ : s₂.state = .highQC :=
      State.le_antisymm (hst₃ ▸ h₂.state_le h23) (hst₁ ▸ h₁.state_le h12)
    exact h₂.proposed_kept h23 hst₂ hst₃ (h₁.proposed_kept h12 hst₁ hst₂ hp)

theorem Inv.withState {s : Spine} (hs : s.Inv) (st : State) : { s with state := st }.Inv :=
  ⟨hs.running, hs.started, hs.height_pos, hs.height_lt, hs.round_lt, hs.storedView, hs.nodeBlock,
    hs.lockNode⟩

theorem Advance.withState (s : Spine) {st : State} (h : s.state ≤ st) :
    Advance s { s with state := st } :=
  .sameView rfl h (fun b hb => ⟨b, hb, rfl⟩) rfl rfl (fun _ => rfl) (fun _ _ hp => hp)

/-- A vote message cast from spine `s`: it carries the current view and the hash of the current
    node. -/
def CastAt (s : Spine) (m : Message) (v : Vote) : Prop :=
  m.view = s.view ∧ v.view = s.view ∧ ∃ n, s.node = some n ∧ v.proposedBlock = n.hash E

/-- The spine may cast a vote of `code` on its own: its node is settled, and a CommitVote comes
    from a locked spine. -/
def Votes (s : Spine) (code : MsgType) : Prop :=
  s.Settled ∧ (code = .commitVote → ∃ b, s.lockedBlock = some b)

/-- A settled spine casts any vote but a CommitVote on its own. -/
theorem Votes.of_settled {s : Spine} (hs : s.Settled) {code : MsgType}
    (hc : code ≠ .commitVote) : s.Votes code :=
  ⟨hs, fun h => absurd h hc⟩

/-- What a message sent from spine `si` says about it.  A vote is cast from it, and the spine may
    cast it on its own or the permit `P` covers a vote of its code; a Prepare proposes its node
    from a settled spine of its view; a Commit carries a lock certificate of the spine's view, from
    a locked spine past `StatePreCommitted`. -/
structure SentAt (P : MsgType → Spine → Prop) (si : Spine) (m : Message) : Prop where
  vote : ∀ v, m.msg = .vote v → CastAt E si m v ∧ (si.Votes v.code ∨ P v.code si)
  prepare : ∀ n qc, m.msg = .packagedQC n qc →
    m.view = si.view ∧ si.Settled ∧ si.node.map ProposedBlock.key = some n.key
  commit : m.code = .commit → ∀ qc, m.msg = .qc qc →
    qc.view = si.view ∧ .preCommitted ≤ si.state ∧ ∃ b, si.lockedBlock = some b

/-- A message that is no vote, Prepare or Commit: it says nothing about the spine it leaves. -/
def Quiet (m : Message) : Prop :=
  (∀ v, m.msg ≠ .vote v) ∧ (∀ n qc, m.msg ≠ .packagedQC n qc) ∧ m.code ≠ .commit

theorem SentAt.of_quiet {P : MsgType → Spine → Prop} {m : Message} (h : Quiet m) (si : Spine) :
    SentAt E P si m :=
  ⟨fun v hv => absurd hv (h.1 v), fun n qc hm => absurd hm (h.2.1 n qc),
    fun hc => absurd hc h.2.2⟩

/-- A message sent on the way from `s` to `s'`, from a spine `si` between the two. -/
def SentBetween (P : MsgType → Spine → Prop) (s s' si : Spine) (m : Message) : Prop :=
  si.Inv ∧ Advance s si ∧ Advance si s' ∧ SentAt E P si m

/-- An operation that leaves spine `s'` from spine `s` and sends `out` keeps the invariant,
    advances, and sends each message from a spine between the two, any two of them from spines
    in order. -/
structure Sound (P : MsgType → Spine → Prop) (s s' : Spine) (out : List Output) : Prop where
  inv : s'.Inv
  adv : Advance s s'
  sends : ∀ m₁ ∈ sentIn out, ∀ m₂ ∈ sentIn out, ∃ s₁ s₂, SentBetween E P s s' s₁ m₁ ∧
    SentBetween E P s s' s₂ m₂ ∧ (Advance s₁ s₂ ∨ Advance s₂ s₁)

variable {E} {P : MsgType → Spine → Prop}

theorem SentBetween.extend {s s' s'' si : Spine} {m : Message}
    (h : SentBetween E P s s' si m) (h' : Advance s' s'') : SentBetween E P s s'' si m :=
  ⟨h.1, h.2.1, h.2.2.1.trans h', h.2.2.2⟩

theorem SentBetween.prepend {s₀ s s' si : Spine} {m : Message}
    (h : SentBetween E P s s' si m) (h' : Advance s₀ s) : SentBetween E P s₀ s' si m :=
  ⟨h.1, h'.trans h.2.1, h.2.2.1, h.2.2.2⟩

/-- Each message sent is sent from a spine between the two ends. -/
theorem Sound.sent {s s' : Spine} {out : List Output} (h : Sound E P s s' out) {m : Message}
    (hm : m ∈ sentIn out) : ∃ si, SentBetween E P s s' si m := by
  obtain ⟨si, -, hsi, -, -⟩ := h.sends m hm m hm
  exact ⟨si, hsi⟩

/-- An operation that sends only quiet messages and keeps the invariant and the order is sound. -/
theorem Sound.of_quiet {s s' : Spine} {out : List Output} (hinv : s'.Inv) (hadv : Advance s s')
    (hout : ∀ m ∈ sentIn out, Quiet m) : Sound E P s s' out := by
  refine ⟨hinv, hadv, fun m₁ hm₁ m₂ hm₂ => ⟨s', s', ?_, ?_, .inl (Advance.refl s')⟩⟩
  · exact ⟨hinv, hadv, Advance.refl s', .of_quiet E (hout m₁ hm₁) s'⟩
  · exact ⟨hinv, hadv, Advance.refl s', .of_quiet E (hout m₂ hm₂) s'⟩

theorem Sound.refl {s : Spine} (hs : s.Inv) : Sound E P s s [] :=
  .of_quiet hs (Advance.refl s) (by simp)

theorem Sound.trans {s₁ s₂ s₃ : Spine} {o₁ o₂ : List Output} (h₁ : Sound E P s₁ s₂ o₁)
    (h₂ : Sound E P s₂ s₃ o₂) : Sound E P s₁ s₃ (o₁ ++ o₂) where
  inv := h₂.inv
  adv := h₁.adv.trans h₂.adv
  sends := by
    intro m₁ hm₁ m₂ hm₂
    rw [sentIn_append, List.mem_append] at hm₁ hm₂
    -- two messages of one part keep their order; a message of the first part is sent before
    -- one of the second, through the middle spine
    rcases hm₁ with hm₁ | hm₁ <;> rcases hm₂ with hm₂ | hm₂
    · obtain ⟨a, b, ha, hb, hab⟩ := h₁.sends m₁ hm₁ m₂ hm₂
      exact ⟨a, b, ha.extend h₂.adv, hb.extend h₂.adv, hab⟩
    · obtain ⟨a, ha⟩ := h₁.sent hm₁
      obtain ⟨b, hb⟩ := h₂.sent hm₂
      exact ⟨a, b, ha.extend h₂.adv, hb.prepend h₁.adv, .inl (ha.2.2.1.trans hb.2.1)⟩
    · obtain ⟨a, ha⟩ := h₂.sent hm₁
      obtain ⟨b, hb⟩ := h₁.sent hm₂
      exact ⟨a, b, ha.prepend h₁.adv, hb.extend h₂.adv, .inr (hb.2.2.1.trans ha.2.1)⟩
    · obtain ⟨a, b, ha, hb, hab⟩ := h₂.sends m₁ hm₁ m₂ hm₂
      exact ⟨a, b, ha.prepend h₁.adv, hb.prepend h₁.adv, hab⟩

theorem Sound.nil_trans {s₁ s₂ s₃ : Spine} {o : List Output} (h₁ : Sound E P s₁ s₂ [])
    (h₂ : Sound E P s₂ s₃ o) : Sound E P s₁ s₃ o := by
  simpa using h₁.trans h₂

theorem Sound.trans_frame {s₁ s₂ s₃ : Spine} {o : List Output} (h : Sound E P s₁ s₂ o)
    (h₃ : s₃ = s₂) : Sound E P s₁ s₃ o := h₃ ▸ h

/-- A permit that covers less still covers what the operation needs when it covers more. -/
theorem Sound.weaken {Q : MsgType → Spine → Prop} {s s' : Spine} {out : List Output}
    (h : Sound E P s s' out) (hPQ : ∀ code si, P code si → Q code si) : Sound E Q s s' out := by
  refine ⟨h.inv, h.adv, fun m₁ hm₁ m₂ hm₂ => ?_⟩
  obtain ⟨a, b, ha, hb, hab⟩ := h.sends m₁ hm₁ m₂ hm₂
  have hw : ∀ {si : Spine} {m : Message}, SentAt E P si m → SentAt E Q si m := fun h' =>
    ⟨fun v hv => ⟨(h'.vote v hv).1, (h'.vote v hv).2.imp id (hPQ _ _)⟩, h'.prepare, h'.commit⟩
  exact ⟨a, b, ⟨ha.1, ha.2.1, ha.2.2.1, hw ha.2.2.2⟩, ⟨hb.1, hb.2.1, hb.2.2.1, hw hb.2.2.2⟩, hab⟩

/-- Messages sent from the spine itself, with nothing else changing. -/
theorem Sound.cast {s : Spine} {out : List Output} (hs : s.Inv)
    (hout : ∀ m ∈ sentIn out, SentAt E P s m) : Sound E P s s out := by
  refine ⟨hs, Advance.refl s, fun m₁ hm₁ m₂ hm₂ => ⟨s, s, ?_, ?_, .inl (Advance.refl s)⟩⟩
  · exact ⟨hs, Advance.refl s, Advance.refl s, hout m₁ hm₁⟩
  · exact ⟨hs, Advance.refl s, Advance.refl s, hout m₂ hm₂⟩

/-- A Prepare or a Commit of the validator itself in the view of `si`, as `checkView` compares
    views: the message that lets a proposer cast a vote of `code` from a spine that may not cast
    it on its own.  A Prepare covers no CommitVote. -/
def Echo (data : Message) (code : MsgType) (si : Spine) : Prop :=
  data.address = si.self ∧
    ((code ≠ .commitVote ∧ ∃ n qc, data.msg = .packagedQC n qc ∧ data.view.sub si.view = (0, 0)) ∨
      (data.code = .commit ∧ ∃ qc, data.msg = .qc qc ∧ qc.view.sub si.view = (0, 0)))

end Spine

end QuorumHotstuff.Hotstuff
