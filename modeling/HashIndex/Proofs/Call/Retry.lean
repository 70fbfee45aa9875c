import HashIndex.Proofs.Call.Refused

/-!
# Taking an element out, with retries

Between the first look at the owner of an element and the moment when its bucket is locked,
somebody else might take the element out, or link it again under another hash. Whoever takes care of
that goes back to the start when the bucket he has locked turns out to be the wrong one. As long as
nobody else is at work, this never happens: the first round decides.

## Main definitions

* `Store.unhashRound`, `Store.unhashLoop`: taking an element out, in as many rounds as it takes.

## Main statements

* `Store.unhashRound_eq`: the first round decides.
* `Store.unhashLoop_eq`: any number of rounds comes to the same.
-/

namespace HashIndex.Store

variable {V K : Type}

/-- A round of taking an element out of a table. There is no answer yet if the bucket of the element
is not the one that was locked. -/
def unhashRound (s : Store V K) (t : TableId) (e : ElementId) :
    Except Fault (Option (Except Refusal Unit) × Store V K) := do
  let x ← s.heap.read e
  if x.owner ≠ .table t then
    return (some (.error .notHashed), s)
  let (bucket, s) ← s.select t x.hash
  let s ← s.lock ⟨t, bucket, true⟩
  let y ← s.heap.read e
  if y.owner ≠ .table t then
    return (some (.error .notHashed), s.unlock ⟨t, bucket, true⟩)
  let table ← s.table t
  if table.index y.hash ≠ table.index x.hash then
    return (none, s.unlock ⟨t, bucket, true⟩)
  let s ← s.detach t bucket e
  return (some (.ok ()), s.unlock ⟨t, bucket, true⟩)

/-- Take an element out of a table in so many rounds at most. -/
def unhashLoop : (rounds : Nat) → Store V K → TableId → ElementId →
    Except Fault (Except Refusal Unit × Store V K)
  | 0, _, _, _ => .error .endlessWalk
  | rounds + 1, s, t, e => do
    match ← s.unhashRound t e with
    | (some result, s) => return (result, s)
    | (none, s) => unhashLoop rounds s t e

/-- The first round decides: when the bucket is locked, the element has the owner and the hash that
it had before. -/
theorem unhashRound_eq (s : Store V K) (t : TableId) (e : ElementId) :
    s.unhashRound t e = s.unhash t e >>= fun (result, s) => pure (some result, s) := by
  unfold unhashRound Store.unhash
  cases hread : s.heap.read e with
  | error fault => rfl
  | ok x =>
    simp only [Fault.ok_bind]
    by_cases howner : x.owner = .table t
    swap
    · simp only [howner, ne_eq, not_false_eq_true, if_true, Fault.pure_eq_ok, Fault.ok_bind]
    simp only [howner, ne_eq, not_true_eq_false, if_false]
    cases htable : s.table t with
    | error fault => simp only [Store.select, htable, Fault.error_bind]
    | ok table =>
      simp only [Store.select, htable, Fault.ok_bind, Fault.pure_eq_ok]
      cases hlock : (s.note (.selected x.hash (table.buckets.size - 1) (table.index x.hash))).lock
        ⟨t, table.slot x.hash, true⟩ with
      | error fault => rfl
      | ok s₁ =>
        -- the lock changes no element and no table
        obtain ⟨-, rfl⟩ := lock_eq_ok_iff.mp hlock
        set s₁ : Store V K := { s.note (.selected x.hash (table.buckets.size - 1)
          (table.index x.hash)) with locks := [⟨t, table.slot x.hash, true⟩] } with hs₁
        have hread₁ : s₁.heap.read e = .ok x := hread
        have htable₁ : s₁.table t = .ok table := htable
        simp only [hread₁, htable₁, howner, Fault.ok_bind, not_true_eq_false, if_false]
        cases s₁.detach t (table.slot x.hash) e <;> rfl

/-- Any number of rounds comes to the same, if there is one. -/
theorem unhashLoop_eq (rounds : Nat) (s : Store V K) (t : TableId) (e : ElementId) :
    unhashLoop (rounds + 1) s t e = s.unhash t e := by
  simp only [unhashLoop, unhashRound_eq]
  cases s.unhash t e <;> rfl

end HashIndex.Store
