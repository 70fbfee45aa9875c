import HashIndex.Proofs.Call.Run

/-!
# Assertions

Much of what is done to elements, chains and tables may be done only in the right state: the words
of an element are written by whoever has claimed it, an element is pushed to a chain when it has no
neighbours, nothing is counted below zero. Each of these conditions is looked at where it matters,
and what is raised if it does not hold is a fault of its own.

## Main definitions

* `Fault.isAssertion`: the faults that say that a condition did not hold.
* `Store.Asserts`: each of them is raised just when its condition does not hold.

## Main statements

* `Store.asserts`: so it is in every store.
* `Store.Runs.slot_lt_size`: hashes select buckets that are there.
* `Store.Runs.call_ne_error`: after a run, no call that is permitted raises any fault.
-/

namespace HashIndex

/-- The fault says that a condition did not hold under which something may be done. -/
def Fault.isAssertion : Fault → Bool
  | .bucketOutOfRange | .notClaimed | .countUnderflow | .destroyedWhileHashed | .pushedWhileLinked
  | .wrongChain | .lengthUnderflow | .iterationOverrun | .entriesUnderflow => true
  | _ => false

variable {V K : Type}

/-- A computation faults if and only if one of its parts does. -/
theorem Fault.bind_eq_error_iff {α β : Type} {first : Except Fault α} {second : α → Except Fault β}
    {fault : Fault} :
    first >>= second = .error fault ↔
      first = .error fault ∨ ∃ value, first = .ok value ∧ second value = .error fault := by
  cases first <;> simp [bind, Except.bind]

theorem Fault.map_eq_error_iff {α β : Type} {action : Except Fault α} {f : α → β} {fault : Fault} :
    f <$> action = .error fault ↔ action = .error fault := by
  cases action <;> simp [Functor.map, Except.map]

theorem Fault.pure_ne_error {α : Type} {value : α} {fault : Fault} :
    (pure value : Except Fault α) ≠ .error fault := fun h => by cases h

theorem Fault.throw_ne_ok {α : Type} {raised : Fault} {result : α} :
    (throw raised : Except Fault α) ≠ .ok result := fun h => by cases h

theorem Fault.throw_eq_error_iff {α : Type} {raised fault : Fault} :
    (throw raised : Except Fault α) = .error fault ↔ fault = raised :=
  ⟨fun h => (Except.error.inj h).symm, fun h => congrArg Except.error h.symm⟩

/-! ## Elements -/

namespace Element

variable {x : Element V} {fault : Fault}

theorem setHash_eq_error_iff {hash : UInt32} :
    x.setHash hash = .error fault ↔ fault = .notClaimed ∧ x.owner ≠ .claimed := by
  unfold setHash
  split <;> simp_all [eq_comm]

theorem setRelease_eq_error_iff {release : Release} :
    x.setRelease release = .error fault ↔ fault = .notClaimed ∧ x.owner ≠ .claimed := by
  unfold setRelease
  split <;> simp_all [eq_comm]

theorem publish_eq_error_iff {t : TableId} :
    x.publish t = .error fault ↔ fault = .notClaimed ∧ x.owner ≠ .claimed := by
  unfold publish
  split <;> simp_all [eq_comm]

end Element

/-! ## Chains -/

theorem Heap.read_eq_error_iff {h : Heap V} {e : ElementId} {fault : Fault} :
    h.read e = .error fault ↔ fault = .danglingElement ∧ h.get? e = none := by
  cases hx : h.get? e <;> simp [Heap.read, hx, eq_comm]

theorem Heap.update_eq_error_iff {h : Heap V} {e : ElementId} {f : Element V → Element V}
    {fault : Fault} :
    h.update e f = .error fault ↔ fault = .danglingElement ∧ h.get? e = none := by
  simp [Heap.update, Fault.map_eq_error_iff, Heap.read_eq_error_iff]

namespace Chain

variable {c c' : Chain} {h h' : Heap V} {e : ElementId} {i : Iter}

/-- An element that has a neighbour is not pushed. -/
theorem pushFront_eq_error_iff :
    c.pushFront e h = .error .pushedWhileLinked ↔
      ∃ x, h.get? e = some x ∧ ¬(x.prev = none ∧ x.next = none) := by
  unfold pushFront
  simp only [Fault.bind_eq_error_iff, Heap.read_eq_error_iff, Heap.read_eq_ok_iff, reduceCtorEq,
    false_and, false_or]
  refine exists_congr fun x => and_congr_right fun hx => ?_
  cases x.prev <;> cases x.next <;> cases c.head <;>
    simp [Fault.bind_eq_error_iff, Fault.map_eq_error_iff, Heap.update_eq_error_iff,
      Fault.throw_eq_error_iff, Fault.pure_ne_error]

/-- An element without a predecessor is not unlinked unless it heads the chain. -/
theorem unlink_eq_error_iff :
    c.unlink e h = .error .wrongChain ↔
      ∃ x, h.get? e = some x ∧ x.prev = none ∧ c.head ≠ some e := by
  unfold unlink
  simp only [Fault.bind_eq_error_iff, Heap.read_eq_error_iff, Heap.read_eq_ok_iff, reduceCtorEq,
    false_and, false_or]
  refine exists_congr fun x => and_congr_right fun hx => ?_
  cases x.prev <;> cases x.next <;> cases c.length <;> by_cases hhead : c.head = some e <;>
    simp [hhead, Fault.bind_eq_error_iff, Fault.map_eq_error_iff, Heap.update_eq_error_iff,
      Fault.throw_eq_error_iff, Fault.pure_ne_error]

/-- Nothing is unlinked from a chain of length zero. -/
theorem unlink_ne_ok (hlength : c.length = 0) (result : Chain × Heap V) :
    c.unlink e h ≠ .ok result := by
  unfold unlink
  intro hunlink
  obtain ⟨x, -, hunlink⟩ := Fault.bind_eq_ok_iff.mp hunlink
  revert hunlink
  cases x.prev <;> cases x.next <;> by_cases hhead : c.head = some e <;>
    simp [hhead, hlength, Fault.bind_eq_ok_iff, Fault.throw_ne_ok]

/-- An iterator does not go on when no element is still to come. -/
theorem advance_eq_error_iff :
    i.advance h = .error .iterationOverrun ↔
      i.remaining = 0 ∧ ∃ e x, i.next = some e ∧ h.get? e = some x := by
  unfold Iter.advance
  cases i.next with
  | none => simp [Fault.pure_ne_error]
  | some e =>
    cases i.remaining <;> simp [Fault.bind_eq_error_iff, Fault.map_eq_error_iff,
      Heap.read_eq_error_iff, Heap.read_eq_ok_iff, Fault.throw_eq_error_iff]

end Chain

/-! ## Tables and references -/

theorem Table.chain_eq_error_iff {table : Table V K} {i : Nat} {fault : Fault} :
    table.chain i = .error fault ↔ fault = .bucketOutOfRange ∧ ¬i < table.buckets.size := by
  unfold Table.chain
  by_cases hi : i < table.buckets.size <;> simp [hi, eq_comm]

namespace Store

variable {s : Store V K} {e : ElementId} {t : TableId} {fault : Fault}

theorem table_eq_error_iff :
    s.table t = .error fault ↔ fault = .danglingTable ∧ s.table? t = none := by
  unfold Store.table
  cases s.table? t <;> simp [eq_comm]

theorem removeEntry_eq_error_iff :
    s.removeEntry t = .error .entriesUnderflow ↔
      ∃ table, s.table? t = some table ∧ table.entries = 0 := by
  unfold removeEntry
  cases ht : s.table? t with
  | none => simp [table_eq_error_iff.mpr ⟨rfl, ht⟩, Fault.error_bind]
  | some table =>
    rw [table_eq ht, Fault.ok_bind]
    by_cases hentries : table.entries = 0 <;>
      simp [hentries, Fault.map_eq_error_iff, Fault.throw_eq_error_iff, Fault.pure_ne_error]

theorem lock_eq_error_iff {lock : Lock} :
    s.lock lock = .error fault ↔ fault = .lockHeld ∧ s.locks ≠ [] := by
  unfold Store.lock
  split <;> simp_all [eq_comm]

/-- Everything that can go wrong when a reference is put. -/
theorem put_eq_error_iff :
    s.put e = .error fault ↔
      (s.heap.get? e = none ∧ fault = .danglingElement) ∨ ∃ x, s.heap.get? e = some x ∧
        (x.count = 0 ∧ fault = .countUnderflow ∨
          x.count = 1 ∧ x.owner ≠ .nobody ∧ fault = .destroyedWhileHashed ∨
          x.count = 1 ∧ x.owner = .nobody ∧ s.locks ≠ [] ∧ fault = .releasedUnderLock) := by
  unfold put
  cases hx : s.heap.get? e with
  | none => simp [Heap.read_eq_error_iff.mpr ⟨rfl, hx⟩, Fault.error_bind, eq_comm]
  | some x =>
    rw [Heap.read_eq hx, Fault.ok_bind]
    rcases hcount : x.count with _ | _ | n <;> by_cases howner : x.owner = .nobody <;>
      by_cases hlocks : s.locks = [] <;>
      simp [hcount, howner, hlocks, Fault.map_eq_error_iff, Fault.bind_eq_error_iff,
        Fault.throw_eq_error_iff, Fault.throw_ne_ok, Fault.pure_ne_error]

/-- What the assertions say of elements, chains and tables. Each is raised just when its condition
does not hold. -/
structure Asserts (s : Store V K) : Prop where
  setHash : ∀ (x : Element V) hash, x.setHash hash = .error .notClaimed ↔ x.owner ≠ .claimed
  setRelease : ∀ (x : Element V) release,
    x.setRelease release = .error .notClaimed ↔ x.owner ≠ .claimed
  publish : ∀ (x : Element V) t, x.publish t = .error .notClaimed ↔ x.owner ≠ .claimed
  pushFront : ∀ (c : Chain) e x, s.heap.get? e = some x →
    (c.pushFront e s.heap = .error .pushedWhileLinked ↔ ¬(x.prev = none ∧ x.next = none))
  unlink : ∀ (c : Chain) e x, s.heap.get? e = some x →
    (c.unlink e s.heap = .error .wrongChain ↔ x.prev = none ∧ c.head ≠ some e)
  length : ∀ (c : Chain) e result, c.length = 0 → c.unlink e s.heap ≠ .ok result
  remaining : ∀ (i : Chain.Iter) e x, i.next = some e → s.heap.get? e = some x →
    (i.advance s.heap = .error .iterationOverrun ↔ i.remaining = 0)
  count : ∀ e x, s.heap.get? e = some x → (s.put e = .error .countUnderflow ↔ x.count = 0)
  destroyed : ∀ e x, s.heap.get? e = some x →
    (s.put e = .error .destroyedWhileHashed ↔ x.count = 1 ∧ x.owner ≠ .nobody)
  bucket : ∀ t table i, s.table? t = some table →
    (s.chain t i = .error .bucketOutOfRange ↔ ¬i < table.buckets.size)
  entries : ∀ t table, s.table? t = some table →
    (s.removeEntry t = .error .entriesUnderflow ↔ table.entries = 0)

theorem asserts (s : Store V K) : s.Asserts where
  setHash x hash := by simp [Element.setHash_eq_error_iff]
  setRelease x release := by simp [Element.setRelease_eq_error_iff]
  publish x t := by simp [Element.publish_eq_error_iff]
  pushFront c e x hx := by simp [Chain.pushFront_eq_error_iff, hx]
  unlink c e x hx := by simp [Chain.unlink_eq_error_iff, hx]
  length c e result hlength := Chain.unlink_ne_ok hlength result
  remaining i e x hi hx := by simp [Chain.advance_eq_error_iff, hi, hx]
  count e x hx := by simp [put_eq_error_iff, hx]
  destroyed e x hx := by simp [put_eq_error_iff, hx]
  bucket t table i ht := by
    simp only [Store.chain, table_eq ht, Fault.ok_bind, Table.chain_eq_error_iff, true_and]
  entries t table ht := by simp [removeEntry_eq_error_iff, ht]

/-! ## After a run -/

variable {trace : List (Call V K × Reply V)} {table : Table V K} {c : Call V K}

/-- Whatever the hash is, it selects a bucket that is there. -/
theorem Runs.slot_lt_size (h : Runs trace s) (ht : s.table? t = some table) (hash : UInt32) :
    table.slot hash < table.buckets.size := by
  obtain ⟨l, -, hs, -⟩ := h.exists_ledger
  obtain ⟨r, -, htable⟩ := hs.exists_roster ht
  rw [htable.slot_eq, htable.size]
  exact r.slot_lt hash

theorem Runs.call_ne_error (h : Runs trace s) (hpermits : s.Permits c) :
    s.call c ≠ .error fault := by
  obtain ⟨reply, s', hcall, -⟩ := h.exists_call hpermits
  rw [hcall]
  exact fun h => by cases h

end Store

end HashIndex
