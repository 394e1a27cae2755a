import Mathlib.Logic.Function.Basic

/-!
# Stores keyed by the hash of what they hold

A content-addressed store maps a hash to what is stored under it.  It is well keyed when each
entry sits under its own hash.  Reading such a store at the hash of a value gives back that value,
or another value with the same hash that the store holds there (`WellKeyed.eq_or_collidesAt`);
writing entries under their own hashes keeps a store well keyed (`WellKeyed.putAll`), an entry once
written stays present whatever is written after it (`putAll_isSome`), and what a store holds after
the writes under a written key is the last write to it (`putAll_of_written`), so a collision there
is one between two of the writes (`putAll_collidesAt`).
-/

namespace QuorumHotstuff.Lib

variable {α κ : Type} {H : α → κ}

/-- The store holds under the hash of `a` another value with the same hash. -/
def CollidesAt (H : α → κ) (db : κ → Option α) (a : α) : Prop :=
  ∃ b, db (H a) = some b ∧ b ≠ a ∧ H b = H a

/-- Every entry of the store sits under its own hash. -/
def WellKeyed (H : α → κ) (db : κ → Option α) : Prop := ∀ k a, db k = some a → H a = k

/-- What a well-keyed store holds under the hash of `a` is `a`, or collides with it. -/
theorem WellKeyed.eq_or_collidesAt {db : κ → Option α} (hdb : WellKeyed H db) {a b : α}
    (h : db (H a) = some b) : b = a ∨ CollidesAt H db a := by
  by_cases hab : b = a
  · exact .inl hab
  · exact .inr ⟨b, h, hab, hdb _ _ h⟩

theorem wellKeyed_empty : WellKeyed H (fun _ => none) := fun _ _ h => by cases h

section Put

variable [DecidableEq κ]

/-- `Put` of each entry in turn, a later one over an earlier one with the same key. -/
def putAll (db : κ → Option α) (puts : List (κ × α)) : κ → Option α :=
  puts.foldl (fun db p => Function.update db p.1 (some p.2)) db

@[simp] theorem putAll_nil (db : κ → Option α) : putAll db [] = db := rfl

@[simp] theorem putAll_cons (db : κ → Option α) (p : κ × α) (puts : List (κ × α)) :
    putAll db (p :: puts) = putAll (Function.update db p.1 (some p.2)) puts := rfl

/-- Entries written under their own hashes keep a store well keyed. -/
theorem WellKeyed.putAll {db : κ → Option α} (hdb : WellKeyed H db) :
    ∀ {puts : List (κ × α)}, (∀ p ∈ puts, H p.2 = p.1) → WellKeyed H (Lib.putAll db puts)
  | [], _ => hdb
  | p :: puts, hputs => by
    have hone : WellKeyed H (Function.update db p.1 (some p.2)) := by
      intro k a hk
      by_cases hkp : k = p.1
      · subst hkp
        rw [Function.update_self, Option.some.injEq] at hk
        rw [← hk]
        exact hputs p List.mem_cons_self
      · rw [Function.update_of_ne hkp] at hk
        exact hdb k a hk
    exact hone.putAll fun q hq => hputs q (List.mem_cons_of_mem p hq)

/-- A present entry stays present through later writes. -/
theorem putAll_isSome_of_isSome {k : κ} :
    ∀ {db : κ → Option α}, (db k).isSome → ∀ puts : List (κ × α), (Lib.putAll db puts k).isSome
  | _, hk, [] => hk
  | db, hk, p :: puts => by
    rw [putAll_cons]
    apply putAll_isSome_of_isSome
    by_cases hkp : k = p.1
    · subst hkp
      simp
    · rwa [Function.update_of_ne hkp]

/-- Every key written is present afterwards. -/
theorem putAll_isSome :
    ∀ {db : κ → Option α} {puts : List (κ × α)} {p : κ × α}, p ∈ puts →
      (Lib.putAll db puts p.1).isSome
  | db, q :: puts, p, hp => by
    rw [putAll_cons]
    rcases List.mem_cons.mp hp with rfl | hp
    · exact putAll_isSome_of_isSome (by simp) puts
    · exact putAll_isSome hp

/-- A key no write names keeps what the store held. -/
theorem putAll_of_unwritten {k : κ} :
    ∀ {db : κ → Option α} {puts : List (κ × α)}, (∀ p ∈ puts, p.1 ≠ k) → Lib.putAll db puts k = db k
  | _, [], _ => rfl
  | db, p :: puts, hk => by
    rw [putAll_cons, putAll_of_unwritten fun q hq => hk q (List.mem_cons_of_mem p hq),
      Function.update_of_ne (Ne.symm (hk p List.mem_cons_self))]

/-- A written key holds the last write to it. -/
theorem putAll_of_written {k : κ} :
    ∀ (db : κ → Option α) {puts : List (κ × α)}, (∃ p ∈ puts, p.1 = k) →
      ∃ q ∈ puts, q.1 = k ∧ Lib.putAll db puts k = some q.2
  | db, p :: puts, hk => by
    rw [putAll_cons]
    by_cases hlater : ∃ q ∈ puts, q.1 = k
    · obtain ⟨q, hq, hqk, hget⟩ := putAll_of_written (Function.update db p.1 (some p.2)) hlater
      exact ⟨q, List.mem_cons_of_mem p hq, hqk, hget⟩
    · -- the first write is the only one to `k`
      have hpk : p.1 = k := by
        obtain ⟨q, hq, hqk⟩ := hk
        rcases List.mem_cons.mp hq with rfl | hq
        · exact hqk
        · exact absurd ⟨q, hq, hqk⟩ hlater
      refine ⟨p, List.mem_cons_self, hpk, ?_⟩
      rw [putAll_of_unwritten fun q hq hqk => hlater ⟨q, hq, hqk⟩, ← hpk, Function.update_self]

/-- After writes under their own hashes, a collision at a written value is one between two of the
    writes. -/
theorem putAll_collidesAt {db : κ → Option α} {puts : List (κ × α)}
    (hputs : ∀ p ∈ puts, H p.2 = p.1) {p : κ × α} (hp : p ∈ puts)
    (h : CollidesAt H (Lib.putAll db puts) p.2) : ∃ q ∈ puts, q.2 ≠ p.2 ∧ H q.2 = H p.2 := by
  obtain ⟨b, hb, hne, -⟩ := h
  obtain ⟨q, hq, hqk, hget⟩ := putAll_of_written db ⟨p, hp, (hputs p hp).symm⟩
  rw [hget, Option.some_inj] at hb
  subst hb
  exact ⟨q, hq, hne, by rw [hputs q hq, hqk]⟩

end Put

end QuorumHotstuff.Lib
