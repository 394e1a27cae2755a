import Mathlib.Logic.Function.Basic
import Mathlib.Tactic.SplitIfs

/-!
# The org cache of the permission service

`permission/core/cache.go`: `OrgCache.UpsertOrg` and `GetOrg` on a cache that never evicts, so
that the LRU is a map from full org ids to `OrgInfo`.  The permission backends call `UpsertOrg` on
every org event (proposal with the status it carries, approval, suspension, reactivation), and the
API's `valSubOrgBreadthDepth` reads the parent's level and `SubOrgList` before a sub-org is added.

`UpsertOrg` appends a sub-org to its parent's `SubOrgList` when the parent is cached, and writes
the upserted org itself afresh with an empty `SubOrgList`.  The status of an org is always that of
its last event (`status_applyEvents`), but an event for a parent drops every sub-org it had.
-/

namespace QuorumHotstuff.Permission

/-- `OrgStatus`. -/
inductive OrgStatus where
  | pendingApproval
  | approved
  | pendingSuspension
  | suspended
deriving DecidableEq, Repr

/-- `OrgInfo`; the level is a `*big.Int`, never negative. -/
structure OrgInfo where
  orgId : String
  fullOrgId : String
  parentOrgId : String
  ultimateParent : String
  level : Nat
  subOrgList : List String
  status : OrgStatus
deriving DecidableEq, Repr

/-- The `OrgKey` of an org: its id under its parent's, joined by a dot. -/
def fullOrgId (orgId parentOrg : String) : String :=
  if parentOrg = "" then orgId else parentOrg ++ "." ++ orgId

/-- `OrgCache` with no evictions: the org cached under each full id. -/
abbrev OrgCache := String → Option OrgInfo

/-- `UpsertOrg`. -/
def upsertOrg (o : OrgCache) (orgId parentOrg ultimateParent : String) (level : Nat)
    (status : OrgStatus) : OrgCache :=
  let key := fullOrgId orgId parentOrg
  -- the parent learns of the sub-org only when it is cached
  let o :=
    if parentOrg = "" then o
    else match o parentOrg with
      | some porg =>
        if porg.subOrgList.contains key then o
        else Function.update o parentOrg (some { porg with subOrgList := porg.subOrgList ++ [key] })
      | none => o
  Function.update o key (some ⟨orgId, key, parentOrg, ultimateParent, level, [], status⟩)

/-- `GetOrg` when nothing was evicted. -/
def getOrg (o : OrgCache) (orgId : String) : Except String OrgInfo :=
  match o orgId with
  | some org => .ok org
  | none => .error "Org does not exist"

/-- The org events the backends watch, with the fields `UpsertOrg` takes. -/
inductive OrgEvent where
  | pendingApproval (orgId porgId ultParent : String) (level : Nat) (status : OrgStatus)
  | approved (orgId porgId ultParent : String) (level : Nat)
  | suspended (orgId porgId ultParent : String) (level : Nat)
  | reactivated (orgId porgId ultParent : String) (level : Nat)
deriving DecidableEq, Repr

namespace OrgEvent

/-- The full id of the org an event is about. -/
def key : OrgEvent → String
  | pendingApproval orgId porgId _ _ _ => fullOrgId orgId porgId
  | approved orgId porgId _ _ => fullOrgId orgId porgId
  | suspended orgId porgId _ _ => fullOrgId orgId porgId
  | reactivated orgId porgId _ _ => fullOrgId orgId porgId

/-- The status an event gives its org. -/
def status : OrgEvent → OrgStatus
  | pendingApproval _ _ _ _ status => status
  | approved .. => .approved
  | suspended .. => .suspended
  | reactivated .. => .approved

end OrgEvent

/-- The org-event loop of `ManageOrgPermissions`, one event. -/
def handleOrgEvent (o : OrgCache) : OrgEvent → OrgCache
  | .pendingApproval orgId porgId ultParent level status =>
    upsertOrg o orgId porgId ultParent level status
  | .approved orgId porgId ultParent level => upsertOrg o orgId porgId ultParent level .approved
  | .suspended orgId porgId ultParent level => upsertOrg o orgId porgId ultParent level .suspended
  | .reactivated orgId porgId ultParent level =>
    upsertOrg o orgId porgId ultParent level .approved

/-- The cache after a sequence of events. -/
def applyEvents (o : OrgCache) : List OrgEvent → OrgCache
  | [] => o
  | e :: es => applyEvents (handleOrgEvent o e) es

/-- The errors of `valSubOrgBreadthDepth`. -/
inductive PermError where
  | opNotAllowed
  | maxDepth
  | maxBreadth
deriving DecidableEq, Repr

/-- `PermError.text`: the texts of `ErrOpNotAllowed`, `ErrMaxDepth` and `ErrMaxBreadth`. -/
def PermError.text : PermError → String
  | opNotAllowed => "Operation not allowed"
  | maxDepth => "Max depth for sub orgs reached"
  | maxBreadth => "Max breadth for sub orgs reached"

/-- `valSubOrgBreadthDepth`: a sub-org may be added under the parent unless the parent is at the
maximal depth or already has the maximal number of sub-orgs. -/
def valSubOrgBreadthDepth (subOrgDepth subOrgBreadth : Nat) (o : OrgCache) (porgId : String) :
    Option PermError :=
  match getOrg o porgId with
  | .error _ => some .opNotAllowed
  | .ok org =>
    if subOrgDepth = org.level then some .maxDepth
    else if subOrgBreadth = org.subOrgList.length then some .maxBreadth
    else none

/-! ## Statuses -/

/-- `UpsertOrg` changes the status of no org but the upserted one; the parent gains a sub-org
    only. -/
theorem upsertOrg_parent {o : OrgCache} {orgId parentOrg ultimateParent : String} {level : Nat}
    {status : OrgStatus} {k : String} (hk : k ≠ fullOrgId orgId parentOrg) :
    (upsertOrg o orgId parentOrg ultimateParent level status k).map OrgInfo.status =
      (o k).map OrgInfo.status := by
  unfold upsertOrg
  rw [Function.update_of_ne hk]
  by_cases hp : parentOrg = ""
  · rw [if_pos hp]
  rw [if_neg hp]
  cases hpo : o parentOrg with
  | none => rfl
  | some porg =>
    dsimp only
    split_ifs
    · rfl
    · by_cases hkp : k = parentOrg
      · subst hkp
        simp [hpo]
      · rw [Function.update_of_ne hkp]

theorem upsertOrg_self (o : OrgCache) (orgId parentOrg ultimateParent : String) (level : Nat)
    (status : OrgStatus) :
    upsertOrg o orgId parentOrg ultimateParent level status (fullOrgId orgId parentOrg) =
      some ⟨orgId, fullOrgId orgId parentOrg, parentOrg, ultimateParent, level, [], status⟩ := by
  simp [upsertOrg]

/-- One event sets the status of its org and no other. -/
theorem status_handleOrgEvent (o : OrgCache) (e : OrgEvent) (k : String) :
    (handleOrgEvent o e k).map OrgInfo.status =
      if k = e.key then some e.status else (o k).map OrgInfo.status := by
  split_ifs with hk
  · subst hk
    cases e <;> simp [handleOrgEvent, OrgEvent.key, OrgEvent.status, upsertOrg_self]
  · cases e <;> exact upsertOrg_parent hk

/-- The status of the last event about `k` among `es`, or `dflt` when there is none. -/
def lastStatus (k : String) (dflt : Option OrgStatus) : List OrgEvent → Option OrgStatus
  | [] => dflt
  | e :: es => lastStatus k (if k = e.key then some e.status else dflt) es

/-- After any sequence of events, an org's status is that of the last event about it. -/
theorem status_applyEvents (es : List OrgEvent) :
    ∀ (o : OrgCache) (k : String),
      (applyEvents o es k).map OrgInfo.status = lastStatus k ((o k).map OrgInfo.status) es := by
  induction es with
  | nil => intro o k; rfl
  | cons e es ih =>
    intro o k
    rw [applyEvents, lastStatus, ih, status_handleOrgEvent]

/-! ## Sub-orgs -/

/-- `UpsertOrg` writes the upserted org with no sub-orgs, whatever it had. -/
theorem subOrgList_upsertOrg (o : OrgCache) (orgId parentOrg ultimateParent : String)
    (level : Nat) (status : OrgStatus) :
    getOrg (upsertOrg o orgId parentOrg ultimateParent level status)
        (fullOrgId orgId parentOrg) =
      .ok ⟨orgId, fullOrgId orgId parentOrg, parentOrg, ultimateParent, level, [], status⟩ := by
  rw [getOrg, upsertOrg_self]

/-- Org A is proposed and approved, its sub-org B is proposed under it, and A is suspended and
reactivated.  A is approved again, as its last event says, but `A.SubOrgList` is empty: the
breadth check with a breadth of one then lets a second sub-org C in, after which A lists C only. -/
theorem org_event_drops_sub_orgs :
    getOrg (applyEvents (fun _ => none)
        [.pendingApproval "A" "" "A" 1 .pendingApproval, .approved "A" "" "A" 1,
          .pendingApproval "B" "A" "A" 2 .pendingApproval, .suspended "A" "" "A" 1,
          .reactivated "A" "" "A" 1]) "A" =
      .ok ⟨"A", "A", "", "A", 1, [], .approved⟩ ∧
    valSubOrgBreadthDepth 4 1 (applyEvents (fun _ => none)
        [.pendingApproval "A" "" "A" 1 .pendingApproval, .approved "A" "" "A" 1,
          .pendingApproval "B" "A" "A" 2 .pendingApproval, .suspended "A" "" "A" 1,
          .reactivated "A" "" "A" 1]) "A" = none ∧
    getOrg (applyEvents (fun _ => none)
        [.pendingApproval "A" "" "A" 1 .pendingApproval, .approved "A" "" "A" 1,
          .pendingApproval "B" "A" "A" 2 .pendingApproval, .suspended "A" "" "A" 1,
          .reactivated "A" "" "A" 1, .pendingApproval "C" "A" "A" 2 .pendingApproval]) "A" =
      .ok ⟨"A", "A", "", "A", 1, ["A.C"], .approved⟩ := by
  refine ⟨rfl, by decide, rfl⟩

end QuorumHotstuff.Permission
