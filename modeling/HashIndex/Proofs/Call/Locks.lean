import HashIndex.Proofs.Call.Assertions
import HashIndex.Proofs.Call.Refused

/-!
# Locks

Nobody waits for a lock that he holds himself. A call takes a lock only when there is none, has
given it back when it returns, whatever it answers, and hands no value to a release meanwhile. So a
lock that lived longer than the call that took it would be found out: every call that locks a bucket
would wait for ever, and a value could not be handed to its release.

## Main definitions

* `Store.under`: a store in which locks are held.
* `Store.Acquires`: calls that lock buckets.

## Main statements

* `Store.Runs.locks_eq_nil`, `Store.Runs.exists_call_unlocked`: no lock is held between calls.
* `Store.Runs.call_under_iff`: under a lock, just those calls wait that lock a bucket.
* `Store.Runs.put_under_iff`: under a lock, the last reference to an element cannot be put.
-/

namespace HashIndex.Store

variable {V K : Type} {s s' : Store V K} {l : Ledger V K} {c : Call V K} {reply : Reply V}
  {e : ElementId} {t : TableId} {x : Element V} {table : Table V K} {locks : List Lock}
  {trace : List (Call V K × Reply V)}

def under (s : Store V K) (locks : List Lock) : Store V K := { s with locks := locks }

/-- What a call does includes locking a bucket. Linking an element comes to that if the key is one
that the element answers to and the element is in no table, and taking an element out of a table if
it is in the table. -/
def Acquires (s : Store V K) : Call V K → Prop
  | .hash t e key => ∃ table x, s.table? t = some table ∧ s.heap.get? e = some x ∧
      table.strategy.equal x.value key = true ∧ x.isHashed = false
  | .unhash t e => ∃ x, s.heap.get? e = some x ∧ x.owner = .table t
  | .lookup _ _ | .lengths _ | .walk _ _ _ _ | .survey _ _ | .drain _ _ => True
  | _ => False

theorem Runs.locks_eq_nil (h : Runs trace s) : s.locks = [] := by
  obtain ⟨l, -, -, hidle⟩ := h.exists_ledger
  exact hidle

/-- A call that is permitted comes back, and has given back all locks. -/
theorem Runs.exists_call_unlocked (h : Runs trace s) (hpermits : s.Permits c) :
    ∃ reply s', s.call c = .ok (reply, s') ∧ s'.locks = [] := by
  obtain ⟨reply, s', hcall, h'⟩ := h.exists_call hpermits
  exact ⟨reply, s', hcall, h'.locks_eq_nil⟩

/-! ## Calls under a lock -/

/-- Linking comes to a lock only if the key fits and the element is in no table. -/
theorem hash_under (hheld : locks ≠ []) (ht : s.table? t = some table)
    (hx : s.heap.get? e = some x) (hclaimed : x.owner ≠ .claimed) (key : K) :
    (s.under locks).hash t e key =
      if table.strategy.equal x.value key = true then
        if x.isHashed then .ok (.error .alreadyHashed, s.under locks) else .error .lockHeld
      else .ok (.error .keyMismatch, s.under locks) := by
  have ht' : (s.under locks).table? t = some table := ht
  have hx' : (s.under locks).heap.get? e = some x := hx
  simp only [Store.hash, strategy_eq ht', Heap.read_eq hx', Fault.ok_bind]
  cases hequal : table.strategy.equal x.value key
  · rfl
  cases howner : x.owner with
  | claimed => exact absurd howner hclaimed
  | table u =>
    simp only [Element.claim?, Element.isHashed, howner]
    rfl
  | nobody =>
    -- the element is claimed, and then its bucket is not to be had
    set w : Store V K := { s.under locks with
      heap := s.heap.write e { x with owner := .claimed, hash := table.strategy.hash key } } with hw
    have hclaim : Store.updateElementM
        { s.under locks with heap := (s.under locks).heap.write e { x with owner := .claimed } } e
        (Element.setHash (table.strategy.hash key)) = .ok w := by
      rw [updateElementM_eq (by rw [Heap.get?_write hx', if_pos rfl]) (if_pos rfl),
        Heap.write_write]
      rfl
    have htw : w.table? t = some table := ht
    have hlock : ∀ note lock, (w.note note).lock lock = .error .lockHeld :=
      fun note lock => lock_eq_error_iff.mpr ⟨rfl, hheld⟩
    simp only [Element.claim?, Element.isHashed, howner, hclaim, select_eq htw, hlock,
      Fault.ok_bind, Fault.error_bind, Bool.not_true, Bool.false_eq_true, if_false, if_true]

theorem unhash_under (hheld : locks ≠ []) (ht : s.table? t = some table)
    (hx : s.heap.get? e = some x) :
    (s.under locks).unhash t e =
      if x.owner = .table t then .error .lockHeld else .ok (.error .notHashed, s.under locks) := by
  have ht' : (s.under locks).table? t = some table := ht
  have hx' : (s.under locks).heap.get? e = some x := hx
  have hlock : ∀ note lock, ((s.under locks).note note).lock lock = .error .lockHeld :=
    fun note lock => lock_eq_error_iff.mpr ⟨rfl, hheld⟩
  simp only [Store.unhash, Heap.read_eq hx', select_eq ht', Fault.ok_bind]
  by_cases howner : x.owner = .table t
  · simp only [howner, ne_eq, not_true_eq_false, if_false, if_true, hlock, Fault.error_bind]
  · simp only [howner, ne_eq, not_false_eq_true, if_false, if_true, Fault.pure_eq_ok]

theorem lookup_under (hheld : locks ≠ []) (ht : s.table? t = some table) (key : K) :
    (s.under locks).lookup t key = .error .lockHeld := by
  have ht' : (s.under locks).table? t = some table := ht
  have hlock : ∀ note lock, ((s.under locks).note note).lock lock = .error .lockHeld :=
    fun note lock => lock_eq_error_iff.mpr ⟨rfl, hheld⟩
  simp only [Store.lookup, strategy_eq ht', select_eq ht', hlock, Fault.ok_bind, Fault.error_bind]

/-- Every table has a bucket. -/
theorem Agrees.exists_bucketRange (hs : s.Agrees l) (ht : s.table? t = some table) :
    ∃ i buckets, s.bucketRange t = .ok (i :: buckets) := by
  obtain ⟨r, hr, htable⟩ := hs.exists_roster ht
  have hpos : 0 < table.buckets.size := htable.size ▸ r.capacity.size_pos
  obtain ⟨n, hn⟩ := Nat.exists_eq_succ_of_ne_zero (Nat.ne_of_gt hpos)
  refine ⟨0, (List.range n).map Nat.succ, ?_⟩
  rw [bucketRange_eq ht, hn, List.range_succ_eq_map]

theorem exists_get?_of_references (h : 0 < s.references e) : ∃ x, s.heap.get? e = some x := by
  cases hx : s.heap.get? e with
  | some x => exact ⟨x, rfl⟩
  | none => simp [references, hx] at h

/-- Under a lock, just those calls wait that lock a bucket. -/
theorem Agrees.call_under_iff (hs : s.Agrees l) (hpermits : s.Permits c) (hheld : locks ≠ []) :
    (s.under locks).call c = .error .lockHeld ↔ s.Acquires c := by
  have hlock : ∀ lock, (s.under locks).lock lock = .error .lockHeld :=
    fun lock => lock_eq_error_iff.mpr ⟨rfl, hheld⟩
  cases c with
  | create | createTable | freeTable => exact iff_of_false (fun h => by cases h) id
  | hold e =>
    obtain ⟨x, hx⟩ := exists_get?_of_references hpermits
    have hx' : (s.under locks).heap.get? e = some x := hx
    simp only [Store.call, Store.hold, updateElement_eq hx', Fault.ok_bind, Fault.pure_eq_ok]
    exact iff_of_false (fun h => by cases h) id
  | put e =>
    refine iff_of_false (fun h => ?_) id
    simp [Store.call, Fault.map_eq_error_iff, put_eq_error_iff] at h
  | hash t e key =>
    obtain ⟨⟨table, ht⟩, hpos⟩ := hpermits
    obtain ⟨x, hx⟩ := exists_get?_of_references hpos
    obtain ⟨a, -, hxa⟩ := hs.exists_account hx
    simp only [Store.call, hash_under hheld ht hx hxa.unclaimed, Acquires, ht, hx]
    cases hequal : table.strategy.equal x.value key <;> cases hhashed : x.isHashed <;>
      simp [hequal, hhashed, Fault.error_bind, Fault.ok_bind, Fault.pure_eq_ok]
  | unhash t e =>
    obtain ⟨⟨table, ht⟩, hpos⟩ := hpermits
    obtain ⟨x, hx⟩ := exists_get?_of_references hpos
    simp only [Store.call, unhash_under hheld ht hx, Acquires, hx]
    by_cases howner : x.owner = .table t <;>
      simp [howner, Fault.error_bind, Fault.ok_bind, Fault.pure_eq_ok]
  | lookup t key =>
    obtain ⟨table, ht⟩ := hpermits
    rw [Store.call, lookup_under hheld ht]
    exact iff_of_true rfl trivial
  | count t =>
    obtain ⟨table, ht⟩ := hpermits
    have ht' : (s.under locks).table? t = some table := ht
    simp only [Store.call, table_eq ht', Fault.ok_bind, Fault.pure_eq_ok]
    exact iff_of_false (fun h => by cases h) id
  | lengths t =>
    obtain ⟨table, ht⟩ := hpermits
    obtain ⟨i, buckets, hrange⟩ := hs.exists_bucketRange ht
    have hrange' : (s.under locks).bucketRange t = .ok (i :: buckets) := hrange
    simp only [Store.call, hrange', Store.chainLengths, Store.chainLength, hlock, Fault.ok_bind,
      Fault.error_bind, Acquires]
  | walk t i number choose =>
    simp only [Store.call, Store.walkBucket, hlock, Fault.error_bind, Acquires]
  | survey t choose =>
    obtain ⟨table, ht⟩ := hpermits
    obtain ⟨i, buckets, hrange⟩ := hs.exists_bucketRange ht
    have hrange' : (s.under locks).bucketRange t = .ok (i :: buckets) := hrange
    simp only [Store.call, hrange', Store.readBuckets, Store.readBucket, hlock, Fault.ok_bind,
      Fault.error_bind, Acquires]
  | drain t i =>
    simp only [Store.call, Store.drainBucket, hlock, Fault.error_bind, Acquires]

theorem Runs.call_under_iff (h : Runs trace s) (hpermits : s.Permits c) (hheld : locks ≠ []) :
    (s.under locks).call c = .error .lockHeld ↔ s.Acquires c := by
  obtain ⟨l, -, hs, -⟩ := h.exists_ledger
  exact hs.call_under_iff hpermits hheld

/-- Under a lock, the last reference to an element cannot be put. -/
theorem Runs.put_under_iff (h : Runs trace s) (hpermits : s.Permits (.put e)) (hheld : locks ≠ []) :
    (s.under locks).call (.put e) = .error .releasedUnderLock ↔
      ∃ x, s.heap.get? e = some x ∧ x.count = 1 := by
  obtain ⟨l, -, hs, -⟩ := h.exists_ledger
  have hpos : 0 < s.references e := hpermits
  obtain ⟨x, hx⟩ := exists_get?_of_references hpos
  have hnobody : x.count = 1 → x.owner = .nobody := by
    intro hone
    obtain ⟨a, -, hxa⟩ := hs.exists_account hx
    refine hxa.owner_of_not_isHashed ?_
    cases hhashed : x.isHashed with
    | false => rfl
    | true => simp [references, hx, hone, hhashed] at hpos
  simpa [Store.call, Fault.map_eq_error_iff, put_eq_error_iff, Store.under, hx, hheld] using hnobody

end HashIndex.Store
